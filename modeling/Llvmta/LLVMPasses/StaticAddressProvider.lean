import Llvmta.Library.ByteRanges
import Llvmta.Library.KeyedPlacement
import Llvmta.LLVMPasses.TimingAnalysisMain
import Mathlib.Data.Prod.Lex
import Mathlib.Data.String.Basic

/-!
# The static address provider

The pass that places the program in the address space. The global variables come one after the
other from the start of the data section on, the constant pools of RISC-V functions follow them,
and the instructions of all functions are placed one after the other in the code section. An ARM
constant pool is part of the code: its entries are pseudo instructions.
-/

namespace Llvmta

namespace StaticAddressProvider

/-- What the initializer of a global variable tells about its value. -/
inductive Initializer where
  | globalVariable (name : String)
  /-- an operand is `none` if it is not a constant integer -/
  | constantExpr (opcode : ℕ) (operands : List (Option ℤ))
  | other
  deriving DecidableEq, Repr

/-- A declaration in a module; the alignment is 0 if it is not specified. -/
structure Variable where
  getName : String
  getAlignment : Word
  typeAllocSize : ℕ
  getInitializer : Option Initializer
  deriving DecidableEq, Repr

/-- The cases of the switches over the opcodes of pseudo instructions. -/
inductive PseudoClass where
  /-- the operands of a `CONSTPOOL_ENTRY` -/
  | constpoolEntry (LabelID CPI : ℕ) (size : ℤ)
  /-- the index of the jump table, if the second operand is one, and the third operand -/
  | jumptableAddrs (JTI : Option ℕ) (size : ℤ)
  /-- no effect later on, like `KILL` -/
  | withoutEffect
  /-- treated as an instruction, like `LEApcrel` or `PseudoCALL` -/
  | instruction
  | unhandled
  deriving DecidableEq, Repr

structure Instr where
  /-- the identity of the object -/
  pointer : ℕ
  isBundle : Bool
  isTransient : Bool
  /-- `none` for the instructions of the target itself -/
  pseudo : Option PseudoClass
  deriving DecidableEq, Repr

/-- A constant, with the global variable that it is the address of. -/
structure PoolConstant where
  sizeInBytes : Word
  globalVariable : Option String
  deriving DecidableEq, Repr

structure Function where
  getFunctionNumber : ℕ
  getConstants : List PoolConstant
  /-- the number of targets of each jump table -/
  getJumpTableInfo : Option (List ℕ)
  basicBlocks : List (List Instr)
  deriving DecidableEq, Repr

def Function.instructions (F : Function) : List Instr := F.basicBlocks.flatten

/-- The objects of a module are distinct. -/
structure Module where
  arch : ArchType
  CodeStartAddress : Word
  globals : List Variable
  functions : List Function
  functions_nodup : (functions.map Function.getFunctionNumber).Nodup
  instructions_nodup : ((functions.flatMap Function.instructions).map Instr.pointer).Nodup

/-- The members of the pass. The space that is left for jump tables is `jumpTables`, which the
source only skips. -/
structure Maps where
  CodeAddress : Word
  RodataAddress : Word
  Addr2ins : OrderedMap Word ℕ
  Ins2addr : OrderedMap ℕ Word
  Ins2posinbb : OrderedMap ℕ ℕ
  Cpe2addr : OrderedMap (ℕ ×ₗ ℕ) Word
  Glvar2addr : OrderedMap String Word
  Addr2values : OrderedMap Word Word
  Addr2symbol : OrderedMap Word String
  jumpTables : List ByteRange

def Maps.new (CodeStartAddress : Word) : Maps :=
  ⟨CodeStartAddress, 0, .empty, .empty, .empty, .empty, .empty, .empty, .empty, []⟩

section Globals

/-- The next address with the desired alignment. -/
def alignStart (Startdatasection Alignment : Word) : Word :=
  if Startdatasection &&& (Alignment - 1) ≠ 0 then
    (Startdatasection &&& ~~~(Alignment - 1)) + Alignment
  else Startdatasection

/-- The address of a variable, and the start for the next one. -/
def placeVariable (placed : OrderedMap String Word × Word) (Gv : Variable) :
    Except Fault (OrderedMap String Word × Word) := do
  assertThat (Gv.getAlignment &&& (Gv.getAlignment - 1) == 0) "alignment is not a power of 2"
  let Startdatasection := alignStart placed.2 Gv.getAlignment
  .ok (placed.1.insertNew Gv.getName Startdatasection,
    Startdatasection + BitVec.ofNat 32 Gv.typeAllocSize)

/-- The initializer that a variable is found with in the map. -/
def initializerOf (globals : List Variable) (name : String) : Option Initializer :=
  (globals.find? fun Gv => Gv.getName == name).bind Variable.getInitializer

/-- What is known about the value of a variable at its address. -/
def trackInitializer (globals : List Variable) (s : Maps) (Gl2ad : String × Word) :
    Except Fault Maps :=
  match initializerOf globals Gl2ad.1 with
  | some (.globalVariable name) =>
    match s.Glvar2addr.find? name with
    | none => .error .outOfBounds
    | some address => .ok { s with
        Addr2values := s.Addr2values.insertNew Gl2ad.2 address
        Addr2symbol := s.Addr2symbol.insertNew Gl2ad.2 name }
  | some (.constantExpr 43 [some value]) =>
    .ok { s with Addr2values := s.Addr2values.insertNew Gl2ad.2 (BitVec.ofInt 32 value) }
  | _ => .ok s

def startOfData : Word := 0x00d0000

def doInitialization (globals : List Variable) (s : Maps) : Except Fault Maps := do
  let placed ← globals.foldlM placeVariable (s.Glvar2addr, startOfData)
  let s ← placed.1.entries.foldlM (trackInitializer globals) { s with Glvar2addr := placed.1 }
  .ok { s with RodataAddress := placed.2 }

end Globals

section Code

/-- The maps, the position in the block, and the sizes in words of its jump tables. -/
structure BlockState where
  maps : Maps
  PosInMbb : ℕ
  SkipAddresses : Word
  jumpTables : List ℕ

/-- A constant that is the address of a variable is a known value. -/
def trackConstant (s : Maps) (entry : PoolConstant) : Except Fault Maps :=
  match entry.globalVariable with
  | none => .ok s
  | some GV =>
    match s.Glvar2addr.find? GV with
    | none => .error .outOfBounds
    | some VarAddr => .ok { s with
        Addr2values := s.Addr2values.insertNew s.CodeAddress VarAddr
        Addr2symbol := s.Addr2symbol.insertNew s.CodeAddress GV }

/-- The size of a constant pool entry in the code. -/
def enterConstant (F : Function) (s : Maps) (LabelID CPI : ℕ) (size : ℤ) :
    Except Fault (Maps × Word) :=
  match F.getConstants[CPI]? with
  | none => .error (.assertion "Invalid constant pool index.")
  | some entry => do
    assertThat (s.Cpe2addr.find? (toLex (F.getFunctionNumber, LabelID)) == none)
      "We saw same constant pool entry twice"
    let s ← trackConstant s entry
    let InstrAllocSizeInBytes := BitVec.ofInt 32 size
    assertThat (InstrAllocSizeInBytes % 4 == 0) "Cannot have non-4-divisble cp entry size"
    .ok ({ s with
      Cpe2addr := s.Cpe2addr.insertNew (toLex (F.getFunctionNumber, LabelID)) s.CodeAddress },
      InstrAllocSizeInBytes)

/-- The number of targets of a jump table. -/
def sizeOfTable (F : Function) (JTI : Option ℕ) (size : ℤ) : Except Fault ℕ :=
  match JTI with
  | none => .error (.assertion "Cannot JUMPTABLE to non jump table")
  | some JTindex =>
    match F.getJumpTableInfo with
    | none => .error (.assertion "Have JUMPTABLE but not jump table")
    | some MJTEs => do
      let targets ← Checked.read MJTEs JTindex
      assertThat (decide (targets > 0)) "Empty or negative jumptable"
      assertThat (size == (4 * BitVec.ofNat 32 targets : Word).toNat)
        "Third operand expected to be jt-size"
      .ok targets

/-- The effect of a pseudo instruction, and its size if an address is assigned to it. -/
def runOnPseudo (arch : ArchType) (F : Function) (s : BlockState) (I : Instr)
    (pseudo : PseudoClass) : Except Fault (BlockState × Option Word) :=
  match arch with
  | .other => .ok (s, none)
  | .arm | .riscv32 =>
    match pseudo, arch with
    | .withoutEffect, _ => do
      assertThat I.isTransient "Non-effect pseudo might have effect?"
      .ok (s, none)
    | .instruction, _ => .ok (s, some 4)
    | .constpoolEntry LabelID CPI size, .arm => do
      let (maps, size) ← enterConstant F s.maps LabelID CPI size
      .ok ({ s with maps := maps }, some size)
    | .jumptableAddrs JTI size, .arm => do
      let targets ← sizeOfTable F JTI size
      .ok ({ s with
        SkipAddresses := s.SkipAddresses + BitVec.ofNat 32 targets
        jumpTables := s.jumpTables ++ [targets] }, none)
    | _, _ => .error (.assertion "We have unhandled pseudo instructions")

def assignAddress (s : Maps) (I : Instr) (InstrAllocSizeInBytes : Word) : Except Fault Maps := do
  assertThat (!I.isTransient) "Instructions might have no effect, but allocate anyway?"
  assertThat (s.Ins2addr.find? I.pointer == none) "We saw the same instruction twice."
  assertThat (s.Addr2ins.find? s.CodeAddress == none)
    "We saw the same address for different instr."
  .ok { s with
    Ins2addr := s.Ins2addr.insertNew I.pointer s.CodeAddress
    Addr2ins := s.Addr2ins.insertNew s.CodeAddress I.pointer
    CodeAddress := s.CodeAddress + InstrAllocSizeInBytes }

/-- Whether an address is assigned to an instruction, and for which size. -/
def runOnEffect (arch : ArchType) (F : Function) (s : BlockState) (I : Instr) :
    Except Fault (BlockState × Option Word) :=
  match I.pseudo with
  | none => .ok (s, some 4)
  | some pseudo => runOnPseudo arch F s I pseudo

/-- The position of the instruction within the basic block. -/
def BlockState.countInstr (s : BlockState) (I : Instr) : BlockState :=
  { s with
    maps := { s.maps with Ins2posinbb := s.maps.Ins2posinbb.insertNew I.pointer s.PosInMbb }
    PosInMbb := s.PosInMbb + 1 }

def runOnMachineInstr (arch : ArchType) (F : Function) (s : BlockState) (I : Instr) :
    Except Fault BlockState := do
  assertThat (!I.isBundle) "We found a bundled instruction!"
  let (s, InstrAllocSizeInBytes) ← runOnEffect arch F (s.countInstr I) I
  match InstrAllocSizeInBytes with
  | none => .ok s
  | some size => do
    let maps ← assignAddress s.maps I size
    .ok { s with maps := maps }

/-- The jump tables of a block, from an address on. -/
def tableRanges (address : Word) : List ℕ → List ByteRange
  | [] => []
  | targets :: tables =>
    ⟨address, 4 * targets⟩ :: tableRanges (address + BitVec.ofNat 32 targets * 4) tables

def runOnMachineBasicBlock (arch : ArchType) (F : Function) (s : Maps) (MBB : List Instr) :
    Except Fault Maps := do
  let s ← MBB.foldlM (runOnMachineInstr arch F) ⟨s, 0, 0, []⟩
  .ok { s.maps with
    CodeAddress := s.maps.CodeAddress + s.SkipAddresses * 4
    jumpTables := s.maps.jumpTables ++ tableRanges s.maps.CodeAddress s.jumpTables }

/-- An entry of a constant pool of RISC-V is placed in the section for read-only data. -/
def placeConstant (F : Function) (s : Maps) (entry : PoolConstant × ℕ) : Except Fault Maps := do
  assertThat (entry.1.sizeInBytes % 8 == 0) "Entrysize % 8 == 0"
  .ok { s with
    Cpe2addr := s.Cpe2addr.insertNew (toLex (F.getFunctionNumber, entry.2)) s.RodataAddress
    RodataAddress := s.RodataAddress + entry.1.sizeInBytes / 8 }

def placeConstants (arch : ArchType) (F : Function) (s : Maps) : Except Fault Maps :=
  match arch with
  | .riscv32 => F.getConstants.zipIdx.foldlM (placeConstant F) s
  | _ => .ok s

def runOnMachineFunction (arch : ArchType) (s : Maps) (F : Function) : Except Fault Maps := do
  let s ← placeConstants arch F s
  F.basicBlocks.foldlM (runOnMachineBasicBlock arch F) s

end Code

/-- The pass over a module. -/
def run (M : Module) : Except Fault Maps := do
  let s ← doInitialization M.globals (.new M.CodeStartAddress)
  M.functions.foldlM (runOnMachineFunction M.arch) s

end StaticAddressProvider

end Llvmta
