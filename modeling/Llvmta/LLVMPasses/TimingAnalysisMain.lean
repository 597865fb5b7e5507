import Llvmta.Library.Worklist
import Llvmta.PreprocessingAnalysis.AddressInformation

/-!
# The address lists of the tasks

Before the timing analysis of tasks on several cores, the lines that each task may
access in the shared cache are collected: for every function that is reachable from
the entry of the task, those of its instructions and of the addresses that
`getvalueaddr` lists for them.
-/

namespace Llvmta

/-- The instruction set of the target. -/
inductive ArchType where
  | arm
  | riscv32
  | other
  deriving DecidableEq, Repr

/-- The global maps: the functions of each task, and the lines listed for a function. -/
structure AddressLists where
  functiontofs : String → Finset String
  addrlist : String → Finset Word

namespace AddressLists

def empty : AddressLists := ⟨fun _ => ∅, fun _ => ∅⟩

def emplaceFunction (lists : AddressLists) (entry funcName : String) : AddressLists :=
  { lists with
    functiontofs := fun task =>
      if task = entry then insert funcName (lists.functiontofs task)
      else lists.functiontofs task }

def emplaceAddress (funcName : String) (lists : AddressLists) (line : Word) : AddressLists :=
  { lists with
    addrlist := fun f =>
      if f = funcName then insert line (lists.addrlist f) else lists.addrlist f }

end AddressLists

/-- What the collection of the addresses depends on. -/
structure TimingAnalysisMain (Instr : Type) where
  arch : ArchType
  program : MachineProgram Instr
  /-- the results of the value analysis that starts at an entry point -/
  constValAna : (entry : String) → AddressInformation Instr
  /-- the entry points of the tasks on each core -/
  taskMap : List (ℕ × List String)
  Dlinesize : Word
  L2linesize : Word

variable {Instr : Type}

namespace MachineProgram

variable (P : MachineProgram Instr)

def hasFunctionByName (funcName : String) : Bool :=
  P.machineFunctions.any fun F => F.name == funcName

/-- The callees with a definition in the program. -/
def getPotentialCallees (callinstr : Instr) : List String :=
  (P.callTargets callinstr).filter P.hasFunctionByName

/-- The functions that are called in the functions of this name. -/
def callees (funcName : String) : List String :=
  (P.machineFunctions.filter fun F => F.name == funcName).flatMap fun F =>
    F.instructions.flatMap P.getPotentialCallees

/-- The search through the call graph. -/
def reachableFromEntryPoint (entry funcName : String) : Bool :=
  decide (funcName ∈ Worklist.explore P.callees P.machineFunctions.length [entry] [])

variable {P}

theorem hasFunctionByName_iff {funcName : String} :
    P.hasFunctionByName funcName = true ↔ funcName ∈ P.machineFunctions.map (·.name) := by
  simp [hasFunctionByName]

/-- The search finds the functions that can be reached through calls. -/
theorem reachableFromEntryPoint_iff {entry : String} (hentry : P.hasFunctionByName entry = true)
    (funcName : String) :
    P.reachableFromEntryPoint entry funcName = true ↔
      Worklist.Reaches P.callees entry funcName := by
  have hnodes : ∀ f, Worklist.Reaches P.callees entry f →
      f ∈ P.machineFunctions.map (·.name) := by
    intro f hf
    cases hf with
    | refl => exact hasFunctionByName_iff.mp hentry
    | tail _ hcall =>
      obtain ⟨F, _, hcall⟩ := List.mem_flatMap.mp hcall
      obtain ⟨MI, _, hcall⟩ := List.mem_flatMap.mp hcall
      exact hasFunctionByName_iff.mp (List.mem_filter.mp hcall).2
  have hmem := @Worklist.mem_explore_iff _ _ _ entry funcName _ hnodes
  rw [List.length_map] at hmem
  rw [reachableFromEntryPoint, decide_eq_true_iff]
  exact hmem

end MachineProgram

namespace TimingAnalysisMain

variable (main : TimingAnalysisMain Instr)

/-- The entry points of the tasks in the order in which they are analysed. -/
def entries : List String := main.taskMap.flatMap fun clist => clist.2

/-- The line of the shared cache. -/
def line (addr : Word) : Word := alignTo main.L2linesize addr

/-- The address of an instruction itself. -/
def collectFetch (funcName : String) (lists : AddressLists) (currMI : Instr) : AddressLists :=
  match main.program.ins2addr currMI with
  | some addr => lists.emplaceAddress funcName (main.line addr)
  | none => lists

def collectInstruction (entry funcName : String) (lists : AddressLists) (currMI : Instr) :
    Except Fault AddressLists :=
  let withInstruction := main.collectFetch funcName lists currMI
  if main.program.mayLoad currMI || main.program.mayStore currMI then do
    let list ← getvalueaddr main.program main.Dlinesize (main.constValAna entry) currMI
    .ok (list.foldl (fun lists addr => lists.emplaceAddress funcName (main.line addr))
      withInstruction)
  else .ok withInstruction

def collectFunction (entry : String) (lists : AddressLists) (currFunc : MachineFunction Instr) :
    Except Fault AddressLists :=
  if !main.program.reachableFromEntryPoint entry currFunc.name then .ok lists
  else
    currFunc.instructions.foldlM (main.collectInstruction entry currFunc.name)
      (lists.emplaceFunction entry currFunc.name)

/-- The collection for a task. For the second instruction set the results of the value
analysis are not used. -/
def collectTask (lists : AddressLists) (entry : String) : Except Fault AddressLists := do
  assertThat (main.program.hasFunctionByName entry) "Invalid entry point specified"
  match main.arch with
  | .arm => main.program.machineFunctions.foldlM (main.collectFunction entry) lists
  | .riscv32 => .ok lists
  | .other => .error (.assertion "Unsupported ISA for LLVMTA")

/-- The first loop of `doFinalization`, for `MultiCoreType::LiangY`. -/
def doFinalization : Except Fault AddressLists :=
  main.entries.foldlM main.collectTask .empty

end TimingAnalysisMain

end Llvmta
