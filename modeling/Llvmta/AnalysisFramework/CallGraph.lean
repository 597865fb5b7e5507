import Llvmta.PartitionUtil.Context

/-!
# The call graph

One walk over all instructions registers each call: at its block, at the function that it
calls, and as a caller of that function. A call of a function without a definition in the
program is registered under the name of the function.
-/

namespace Llvmta

/-- The operand of a call for its target. -/
inductive CallTarget where
  | globalAddress (name : String)
  | symbol (name : String)
  | other
  deriving DecidableEq, Repr

/-- The functions that the collector has found, with their instructions. -/
structure MachineFunctionCollector where
  getAllMachineFunctions : List MachineFunctionId
  blocks : MachineFunctionId → List MachineBasicBlock
  /-- the instructions of a block by their numbers -/
  instructions : MachineBasicBlock → List CallSite
  isCall : CallSite → Bool
  /-- the first operand of a call -/
  callTarget : CallSite → CallTarget
  /-- the definitions by their names -/
  Name2func : String → Option MachineFunctionId
  mem_of_Name2func : ∀ {name f}, Name2func name = some f → f ∈ getAllMachineFunctions

structure CallGraph where
  potentialCallees : CallSite → List MachineFunctionId
  potentialCallSites : MachineFunctionId → List CallSite
  callsitesPerMBB : MachineBasicBlock → List CallSite
  potentialExtCallSites : String → List CallSite

/-- A value is appended to the list of a key. -/
def pushBack {α β : Type} [DecidableEq α] (lists : α → List β) (key : α) (value : β) :
    α → List β :=
  fun a => if a = key then lists a ++ [value] else lists a

theorem mem_pushBack {α β : Type} [DecidableEq α] {lists : α → List β} {key a : α}
    {value b : β} : b ∈ pushBack lists key value a ↔ b ∈ lists a ∨ a = key ∧ b = value := by
  unfold pushBack
  split_ifs with h <;> simp [h]

namespace MachineFunctionCollector

variable (collector : MachineFunctionCollector)

/-- The function in the program that a call leads to. -/
def callee (currMI : CallSite) : Option MachineFunctionId :=
  match collector.callTarget currMI with
  | .globalAddress functionName => collector.Name2func functionName
  | .symbol funcName => collector.Name2func funcName
  | .other => none

/-- A call in a block of the program. -/
def HasCallIn (bb : MachineBasicBlock) (currMI : CallSite) : Prop :=
  (∃ f ∈ collector.getAllMachineFunctions, bb ∈ collector.blocks f) ∧
    currMI ∈ collector.instructions bb ∧ collector.isCall currMI = true

/-- A block of the program calls a function. -/
def CallsDirectly (bb : MachineBasicBlock) (f : MachineFunctionId) : Prop :=
  ∃ currMI, collector.HasCallIn bb currMI ∧ collector.callee currMI = some f

/-- A non-empty chain of calls that starts in one of the blocks. -/
inductive CallChain (basicBlocks : List MachineBasicBlock) : MachineFunctionId → Prop where
  | call {bb f} : bb ∈ basicBlocks → collector.CallsDirectly bb f → CallChain basicBlocks f
  | nested {g bb f} : CallChain basicBlocks g → bb ∈ collector.blocks g →
      collector.CallsDirectly bb f → CallChain basicBlocks f

end MachineFunctionCollector

namespace CallGraph

variable (collector : MachineFunctionCollector)

def empty : CallGraph := ⟨fun _ => [], fun _ => [], fun _ => [], fun _ => []⟩

/-- A call whose target has a name. -/
def addTarget (graph : CallGraph) (currMI : CallSite) (functionName : String) : CallGraph :=
  match collector.Name2func functionName with
  | some callee =>
    { graph with
      potentialCallSites := pushBack graph.potentialCallSites callee currMI
      potentialCallees := pushBack graph.potentialCallees currMI callee }
  | none =>
    { graph with
      potentialExtCallSites := pushBack graph.potentialExtCallSites functionName currMI }

def addInstruction (currBB : MachineBasicBlock) (graph : CallGraph) (currMI : CallSite) :
    CallGraph :=
  if collector.isCall currMI then
    let graph :=
      { graph with callsitesPerMBB := pushBack graph.callsitesPerMBB currBB currMI }
    match collector.callTarget currMI with
    | .globalAddress functionName => graph.addTarget collector currMI functionName
    | .symbol funcName => graph.addTarget collector currMI funcName
    | .other => graph
  else graph

def addBlock (graph : CallGraph) (currBB : MachineBasicBlock) : CallGraph :=
  (collector.instructions currBB).foldl (addInstruction collector currBB) graph

def addFunction (graph : CallGraph) (currFunc : MachineFunctionId) : CallGraph :=
  (collector.blocks currFunc).foldl (addBlock collector) graph

def recomputeCallGraph : CallGraph :=
  collector.getAllMachineFunctions.foldl (addFunction collector) empty

def getCallSites (graph : CallGraph) (MF : MachineFunctionId) : List CallSite :=
  graph.potentialCallSites MF

def getCallSitesInMBB (graph : CallGraph) (MBB : MachineBasicBlock) : List CallSite :=
  graph.callsitesPerMBB MBB

def getPotentialCallees (graph : CallGraph) (MI : CallSite) : List MachineFunctionId :=
  graph.potentialCallees MI

section Registered

variable {collector}

/-- What the call graph registers when exactly these instructions have been visited, each
with its block. -/
structure Registers (collector : MachineFunctionCollector)
    (visited : MachineBasicBlock → CallSite → Prop) (graph : CallGraph) : Prop where
  callSitesInMBB : ∀ bb MI, MI ∈ graph.getCallSitesInMBB bb ↔
    visited bb MI ∧ collector.isCall MI = true
  potentialCallees : ∀ MI f, f ∈ graph.getPotentialCallees MI ↔
    (∃ bb, visited bb MI) ∧ collector.isCall MI = true ∧ collector.callee MI = some f
  callSites : ∀ f MI, MI ∈ graph.getCallSites f ↔
    (∃ bb, visited bb MI) ∧ collector.isCall MI = true ∧ collector.callee MI = some f

variable {visited : MachineBasicBlock → CallSite → Prop} {graph : CallGraph}

theorem Registers.empty : Registers collector (fun _ _ => False) empty := by
  constructor <;> intros <;>
    simp [CallGraph.empty, getCallSitesInMBB, getPotentialCallees, getCallSites]

theorem Registers.congr {visited' : MachineBasicBlock → CallSite → Prop}
    (h : Registers collector visited graph) (heq : ∀ bb MI, visited bb MI ↔ visited' bb MI) :
    Registers collector visited' graph := by
  have : visited = visited' := funext fun bb => funext fun MI => propext (heq bb MI)
  exact this ▸ h

theorem callSitesInMBB_addTarget (currMI : CallSite) (name : String) :
    (graph.addTarget collector currMI name).callsitesPerMBB = graph.callsitesPerMBB := by
  unfold addTarget
  split <;> rfl

theorem mem_potentialCallees_addTarget {currMI MI : CallSite} {name : String}
    {f : MachineFunctionId} :
    f ∈ (graph.addTarget collector currMI name).potentialCallees MI ↔
      f ∈ graph.potentialCallees MI ∨ MI = currMI ∧ collector.Name2func name = some f := by
  unfold addTarget
  split
  next callee h => simp [mem_pushBack, h, eq_comm]
  next h => simp [h]

theorem mem_potentialCallSites_addTarget {currMI MI : CallSite} {name : String}
    {f : MachineFunctionId} :
    MI ∈ (graph.addTarget collector currMI name).potentialCallSites f ↔
      MI ∈ graph.potentialCallSites f ∨ MI = currMI ∧ collector.Name2func name = some f := by
  unfold addTarget
  split
  next callee h => simp [mem_pushBack, h, eq_comm, and_comm]
  next h => simp [h]

/-- A call is registered at its block, and for the function that it leads to. -/
theorem mem_addInstruction (currBB : MachineBasicBlock) (graph : CallGraph)
    {currMI : CallSite} (hcall : collector.isCall currMI = true) :
    (∀ bb MI, MI ∈ (addInstruction collector currBB graph currMI).callsitesPerMBB bb ↔
        MI ∈ graph.callsitesPerMBB bb ∨ bb = currBB ∧ MI = currMI) ∧
      (∀ MI f, f ∈ (addInstruction collector currBB graph currMI).potentialCallees MI ↔
        f ∈ graph.potentialCallees MI ∨ MI = currMI ∧ collector.callee currMI = some f) ∧
      ∀ f MI, MI ∈ (addInstruction collector currBB graph currMI).potentialCallSites f ↔
        MI ∈ graph.potentialCallSites f ∨ MI = currMI ∧ collector.callee currMI = some f := by
  unfold addInstruction MachineFunctionCollector.callee
  rw [if_pos hcall]
  dsimp only
  cases collector.callTarget currMI with
  | globalAddress name =>
    refine ⟨fun bb MI => ?_, fun _ _ => mem_potentialCallees_addTarget,
      fun _ _ => mem_potentialCallSites_addTarget⟩
    rw [callSitesInMBB_addTarget]
    exact mem_pushBack
  | symbol name =>
    refine ⟨fun bb MI => ?_, fun _ _ => mem_potentialCallees_addTarget,
      fun _ _ => mem_potentialCallSites_addTarget⟩
    rw [callSitesInMBB_addTarget]
    exact mem_pushBack
  | other => exact ⟨fun _ _ => mem_pushBack, by simp, by simp⟩

theorem Registers.addInstruction (h : Registers collector visited graph)
    (currBB : MachineBasicBlock) (currMI : CallSite) :
    Registers collector (fun bb MI => visited bb MI ∨ bb = currBB ∧ MI = currMI)
      (addInstruction collector currBB graph currMI) := by
  by_cases hcall : collector.isCall currMI = true
  · obtain ⟨hblock, hcallees, hsites⟩ := mem_addInstruction currBB graph hcall
    constructor
    · intro bb MI
      have := h.callSitesInMBB bb MI
      unfold getCallSitesInMBB at *
      rw [hblock, this]
      grind
    · intro MI f
      have := h.potentialCallees MI f
      unfold getPotentialCallees at *
      rw [hcallees, this]
      grind
    · intro f MI
      have := h.callSites f MI
      unfold getCallSites at *
      rw [hsites, this]
      grind
  · have hsame : CallGraph.addInstruction collector currBB graph currMI = graph := by
      unfold CallGraph.addInstruction
      rw [if_neg hcall]
    rw [hsame]
    have hcalls := h.callSitesInMBB
    have hcallees := h.potentialCallees
    have hsites := h.callSites
    constructor <;> grind

theorem Registers.addBlock (h : Registers collector visited graph) (currBB : MachineBasicBlock) :
    Registers collector
      (fun bb MI => visited bb MI ∨ bb = currBB ∧ MI ∈ collector.instructions currBB)
      (addBlock collector graph currBB) := by
  unfold CallGraph.addBlock
  generalize collector.instructions currBB = instrs
  induction instrs generalizing visited graph with
  | nil => exact h.congr (by simp)
  | cons currMI instrs ih =>
    rw [List.foldl_cons]
    apply (ih (h.addInstruction currBB currMI)).congr
    intro bb MI
    rw [List.mem_cons]
    tauto

theorem Registers.addFunction (h : Registers collector visited graph)
    (currFunc : MachineFunctionId) :
    Registers collector
      (fun bb MI => visited bb MI ∨
        bb ∈ collector.blocks currFunc ∧ MI ∈ collector.instructions bb)
      (addFunction collector graph currFunc) := by
  unfold CallGraph.addFunction
  generalize collector.blocks currFunc = blocks
  induction blocks generalizing visited graph with
  | nil => exact h.congr (by simp)
  | cons currBB blocks ih =>
    rw [List.foldl_cons]
    apply (ih (h.addBlock currBB)).congr
    intro bb MI
    rw [List.mem_cons]
    constructor
    · rintro ((hv | ⟨rfl, hMI⟩) | ⟨hbb, hMI⟩)
      · exact .inl hv
      · exact .inr ⟨.inl rfl, hMI⟩
      · exact .inr ⟨.inr hbb, hMI⟩
    · rintro (hv | ⟨rfl | hbb, hMI⟩)
      · exact .inl (.inl hv)
      · exact .inl (.inr ⟨rfl, hMI⟩)
      · exact .inr ⟨hbb, hMI⟩

/-- The call graph registers all calls of the program. -/
theorem registers_recomputeCallGraph (collector : MachineFunctionCollector) :
    Registers collector
      (fun bb MI => (∃ f ∈ collector.getAllMachineFunctions, bb ∈ collector.blocks f) ∧
        MI ∈ collector.instructions bb) (recomputeCallGraph collector) := by
  have hrun : ∀ (functions : List MachineFunctionId) {visited graph},
      Registers collector visited graph →
        Registers collector (fun bb MI => visited bb MI ∨
          (∃ f ∈ functions, bb ∈ collector.blocks f) ∧ MI ∈ collector.instructions bb)
          (functions.foldl (CallGraph.addFunction collector) graph) := by
    intro functions
    induction functions with
    | nil => intro visited graph h; exact h.congr (by simp)
    | cons currFunc functions ih =>
      intro visited graph h
      rw [List.foldl_cons]
      apply (ih (h.addFunction currFunc)).congr
      intro bb MI
      simp only [List.exists_mem_cons_iff]
      tauto
  exact (hrun _ .empty).congr (by simp)

end Registered

section Calls

variable {collector}

theorem mem_getCallSitesInMBB {bb : MachineBasicBlock} {MI : CallSite} :
    MI ∈ (recomputeCallGraph collector).getCallSitesInMBB bb ↔ collector.HasCallIn bb MI := by
  rw [(registers_recomputeCallGraph collector).callSitesInMBB, and_assoc]
  rfl

theorem mem_getPotentialCallees {MI : CallSite} {f : MachineFunctionId} :
    f ∈ (recomputeCallGraph collector).getPotentialCallees MI ↔
      (∃ bb, collector.HasCallIn bb MI) ∧ collector.callee MI = some f := by
  rw [(registers_recomputeCallGraph collector).potentialCallees]
  unfold MachineFunctionCollector.HasCallIn
  constructor
  · rintro ⟨⟨bb, hblock, hMI⟩, hcall, hcallee⟩
    exact ⟨⟨bb, hblock, hMI, hcall⟩, hcallee⟩
  · rintro ⟨⟨bb, hblock, hMI, hcall⟩, hcallee⟩
    exact ⟨⟨bb, hblock, hMI⟩, hcall, hcallee⟩

/-- The call sites of a function are the calls that lead to it. -/
theorem mem_getCallSites {f : MachineFunctionId} {MI : CallSite} :
    MI ∈ (recomputeCallGraph collector).getCallSites f ↔
      (∃ bb, collector.HasCallIn bb MI) ∧ collector.callee MI = some f := by
  rw [← mem_getPotentialCallees, (registers_recomputeCallGraph collector).callSites,
    (registers_recomputeCallGraph collector).potentialCallees]

end Calls

end CallGraph

end Llvmta
