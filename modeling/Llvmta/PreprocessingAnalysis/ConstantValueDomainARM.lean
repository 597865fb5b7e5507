import Llvmta.PreprocessingAnalysis.ConstantValueDomain

/-!
# Constant values on ARM

The addresses of data accesses and the transfer function for `arm`. As on RISC-V
the operands of an opcode are typed. Opcodes that have no case of their own fall
under the default case, which needs to know their addressing mode if they store.
-/

namespace Llvmta
namespace ARM

open Checked

inductive ShiftOpc where
  | no_shift
  | asr
  | lsl
  | lsr
  | ror
  | rrx
  deriving DecidableEq, Repr

def ShiftOpc.toNat : ShiftOpc → ℕ
  | no_shift => 0
  | asr => 1
  | lsl => 2
  | lsr => 3
  | ror => 4
  | rrx => 5

/-- The offset operand of addressing mode 2, decoded. -/
structure AM2Opc where
  offset : Fin 4096
  isSub : Bool
  shift : ShiftOpc
  deriving DecidableEq, Repr

/-- The operand as it is stored in the instruction. -/
def AM2Opc.getImm (opc : AM2Opc) : ℤ :=
  opc.offset.val + (if opc.isSub then 4096 else 0) + 8192 * opc.shift.toNat

/-- The offset operand of addressing modes 3 and 5. -/
structure SignedOffset where
  offset : Fin 256
  isSub : Bool
  deriving DecidableEq, Repr

/-- The register list of a load or store multiple, in ascending order. -/
structure RegList where
  regs : List ℕ
  sorted : regs.Pairwise (· < ·)
  lt : ∀ r ∈ regs, r < 32
  deriving DecidableEq, Repr

inductive AMSubMode where
  | ia
  | ib
  | da
  | db
  deriving DecidableEq, Repr

/-- How the address of an access is computed. -/
inductive AddrMode where
  | i12 (base : ℕ) (imm : ℤ)
  | post (base : ℕ)
  | mode2 (base offset : ℕ) (opc : AM2Opc)
  | mode3 (base : ℕ) (offset : Option ℕ) (opc : SignedOffset) (isDouble : Bool)
  | mode5 (base : ℕ) (opc : SignedOffset) (isDouble : Bool)
  /-- load or store multiple of so many words -/
  | mode4 (submode : AMSubMode) (base numopreglist : ℕ)
  deriving DecidableEq, Repr

/-- Loads that are not handled and do not store are among `other`; `PLDi12` and
`PLDrs` stand for all prefetches of their addressing mode. Loads of multiple
registers may have implicit operands behind their register list. -/
inductive Opcode where
  | LEApcrel (dest : ℕ) (operand : MachineOperand)
  | MOVi (dest : ℕ) (imm : ℤ)
  | MOVi16 (dest : ℕ) (operand : MachineOperand)
  | MOVTi16 (dest : ℕ) (operand : MachineOperand)
  | MVNi (dest : ℕ) (imm : ℤ)
  | MOVr (dest src : ℕ)
  | SUBri (dest src : ℕ) (imm : ℤ)
  | ADDri (dest src : ℕ) (imm : ℤ)
  | ADDrr (dest src src2 : ℕ)
  | ADDrsi (dest src src2 : ℕ) (shift : ShiftOpc) (offset : ℕ)
  | BICri (dest src : ℕ) (imm : ℤ)
  | LDRi12 (dest base : ℕ) (imm : ℤ)
  | LDRcp (dest cpi : ℕ)
  | LDR_PRE_IMM (dest base : ℕ) (imm : ℤ)
  | LDR_POST_IMM (dest base : ℕ) (opc : AM2Opc)
  | LDMIA_UPD (base : ℕ) (regs : RegList)
  | LDMIA_RET (base : ℕ) (regs : RegList) (numImplicit : ℕ)
  | VLDMDIA_UPD (base : ℕ) (regs : RegList) (numImplicit : ℕ)
  | VLDMSIA_UPD (base : ℕ) (regs : RegList) (numImplicit : ℕ)
  | BL
  | BL_pred
  | STRi12 (src base : ℕ) (imm : ℤ)
  | STR_PRE_IMM (src base : ℕ) (imm : ℤ)
  | STMDB_UPD (base : ℕ) (regs : RegList)
  | VSTMDDB_UPD (base : ℕ) (regs : RegList)
  | STRBi12 (src base : ℕ) (imm : ℤ)
  | STRB_PRE_IMM (src base : ℕ) (imm : ℤ)
  | STR_POST_IMM (src base : ℕ) (opc : AM2Opc)
  | STRB_POST_IMM (src base : ℕ) (opc : AM2Opc)
  | STR_POST_REG (src base offset : ℕ) (opc : AM2Opc)
  | STRrs (src base offset : ℕ) (opc : AM2Opc)
  | STRBrs (src base offset : ℕ) (opc : AM2Opc)
  | STR_PRE_REG (src base offset : ℕ) (opc : AM2Opc)
  | STRB_PRE_REG (src base offset : ℕ) (opc : AM2Opc)
  | STRH (src base : ℕ) (offset : Option ℕ) (opc : SignedOffset)
  | STRH_PRE (src base : ℕ) (offset : Option ℕ) (opc : SignedOffset)
  | STRH_POST (src base : ℕ) (offset : Option ℕ) (opc : SignedOffset)
  | STRD (src src2 base : ℕ) (offset : Option ℕ) (opc : SignedOffset)
  | VSTRS (src base : ℕ) (opc : SignedOffset)
  | VSTRD (src base : ℕ) (opc : SignedOffset)
  | STMIA (base : ℕ) (regs : RegList)
  | STMIB (base : ℕ) (regs : RegList)
  | STMDA (base : ℕ) (regs : RegList)
  | STMDB (base : ℕ) (regs : RegList)
  | STMIA_UPD (base : ℕ) (regs : RegList)
  | STMIB_UPD (base : ℕ) (regs : RegList)
  | STMDA_UPD (base : ℕ) (regs : RegList)
  | VSTMDIA (base : ℕ) (regs : RegList)
  | VSTMDIA_UPD (base : ℕ) (regs : RegList)
  | PLDi12 (base : ℕ) (imm : ℤ)
  | PLDrs (base offset : ℕ) (opc : AM2Opc)
  | other (mayStore : Bool)
  deriving DecidableEq, Repr

/-- What the entry block of a function says about its parameters. -/
structure FunctionEntry where
  liveinregs : List ℕ
  /-- registers and parameter names of the debug entries -/
  debugValues : List (ℕ × String)
  deriving DecidableEq, Repr

structure Instr extends MachineInstr Opcode where
  /-- given for the first instruction of a function -/
  functionEntry : Option FunctionEntry
  isCall : Bool
  /-- executed under a condition other than "always" -/
  predicated : Bool
  deriving DecidableEq, Repr

namespace Opcode

/-- The addressing modes for which the addresses of accesses are computed. -/
def addrMode : Opcode → Option AddrMode
  | LDRi12 _ base imm | STRi12 _ base imm | STR_PRE_IMM _ base imm | STRBi12 _ base imm
  | STRB_PRE_IMM _ base imm | PLDi12 base imm => some (.i12 base imm)
  | STR_POST_IMM _ base _ | STRB_POST_IMM _ base _ | STR_POST_REG _ base _ _
  | STRH_POST _ base _ _ => some (.post base)
  | STRrs _ base offset opc | STRBrs _ base offset opc | STR_PRE_REG _ base offset opc
  | STRB_PRE_REG _ base offset opc | PLDrs base offset opc => some (.mode2 base offset opc)
  | STRH _ base offset opc | STRH_PRE _ base offset opc => some (.mode3 base offset opc false)
  | STRD _ _ base offset opc => some (.mode3 base offset opc true)
  | VSTRS _ base opc => some (.mode5 base opc false)
  | VSTRD _ base opc => some (.mode5 base opc true)
  | LDMIA_UPD base regs | STMIA base regs | STMIA_UPD base regs =>
    some (.mode4 .ia base regs.regs.length)
  | STMIB base regs | STMIB_UPD base regs => some (.mode4 .ib base regs.regs.length)
  | STMDA base regs | STMDA_UPD base regs => some (.mode4 .da base regs.regs.length)
  | STMDB base regs | STMDB_UPD base regs => some (.mode4 .db base regs.regs.length)
  | VSTMDDB_UPD base regs => some (.mode4 .db base (2 * regs.regs.length))
  | VSTMDIA base regs | VSTMDIA_UPD base regs => some (.mode4 .ia base (2 * regs.regs.length))
  | _ => none

def mayStore : Opcode → Bool
  | STRi12 .. | STR_PRE_IMM .. | STMDB_UPD .. | VSTMDDB_UPD .. | STRBi12 .. | STRB_PRE_IMM ..
  | STR_POST_IMM .. | STRB_POST_IMM .. | STR_POST_REG .. | STRrs .. | STRBrs .. | STR_PRE_REG ..
  | STRB_PRE_REG .. | STRH .. | STRH_PRE .. | STRH_POST .. | STRD .. | VSTRS .. | VSTRD ..
  | STMIA .. | STMIB .. | STMDA .. | STMDB .. | STMIA_UPD .. | STMIB_UPD .. | STMDA_UPD ..
  | VSTMDIA .. | VSTMDIA_UPD .. | PLDi12 .. | PLDrs .. => true
  | other mayStore => mayStore
  | _ => false

/-- `getNumOfDataAccesses`, for the instructions that may store. -/
def getNumOfDataAccesses (opcode : Opcode) : Except Fault ℕ :=
  match opcode.addrMode with
  | some (.mode3 _ _ _ true) | some (.mode5 _ _ true) => .ok 2
  | some (.mode4 _ _ numopreglist) => .ok numopreglist
  | some _ => .ok 1
  | none => .error (.assertion "We do not support this instruction opcode")

end Opcode

variable (P : StaticAddresses) (MI : Instr)

/-- The offset of `AddrMode_i12`; the smallest integer stands for `#-0`. -/
def i12Offset (imm : ℤ) : Word :=
  if BitVec.ofInt 32 imm = 0x80000000 then 0 else BitVec.ofInt 32 imm

/-- The register offset of addressing mode 2 as the analysis computes it. -/
def shiftOffset (opc : AM2Opc) (rmregval : Word) : Except Fault Word :=
  match opc.shift with
  | .no_shift => .ok rmregval
  | .lsl => .ok (rmregval <<< opc.offset.val)
  | .asr =>
    if opc.offset.val = 0 then .ok (if rmregval &&& 0x8000000 ≠ 0 then 0xFFFFFFFF else 0)
    else .ok (rmregval.sshiftRight opc.offset.val)
  | .lsr => if opc.offset.val = 0 then .ok 0 else .ok (rmregval >>> opc.offset.val)
  | .ror | .rrx => .error (.assertion "Unsupported shift/rotation in load")

def addOrSub (isSub : Bool) (address offset : Word) : Word :=
  if isSub then address - offset else address + offset

/-- The first address of a load or store multiple. -/
def startAddress (submode : AMSubMode) (startvalue : Word) (numopreglist : ℕ) : Word :=
  match submode with
  | .ia => startvalue
  | .ib => startvalue + 4
  | .da => startvalue - 4 * BitVec.ofNat 32 numopreglist + 4
  | .db => startvalue - 4 * BitVec.ofNat 32 numopreglist

def getDataAccessAddress (σ : ConstantValueDomain) (pos : ℕ) : Except Fault DataAddress :=
  if σ.bot then .ok (.interval 1 0) else
  match MI.opcode.addrMode with
  | none => .ok .getUnknownAddress
  | some (.i12 base imm) =>
    match σ.reg2const.find? base with
    | none => .ok (σ.addressOfUnknownBase P MI.memoperands base)
    | some value => .ok (.ofAddress (value + i12Offset imm))
  | some (.post base) =>
    match σ.reg2const.find? base with
    | none => .ok (σ.addressOfUnknownBase P MI.memoperands base)
    | some value => .ok (.ofAddress value)
  | some (.mode2 base offset opc) =>
    match σ.reg2const.find? base, σ.reg2const.find? offset with
    | some value, some rmregval => do
      let rmregval ← shiftOffset opc rmregval
      .ok (.ofAddress (addOrSub opc.isSub value rmregval))
    | _, _ => .ok (σ.addressOfUnknownBase P MI.memoperands base)
  | some (.mode3 base offset opc isDouble) =>
    match σ.reg2const.find? base with
    | none => .ok (σ.addressOfUnknownBase P MI.memoperands base)
    | some value => do
      let addr ←
        match offset with
        | none => .ok (some (addOrSub opc.isSub value (BitVec.ofNat 32 opc.offset.val)))
        | some offset => .ok ((σ.reg2const.find? offset).map (addOrSub opc.isSub value))
      match addr with
      | none => .ok (σ.addressOfUnknownBase P MI.memoperands base)
      | some addr => do
        assertThat (!isDouble || pos < 2) "Position argument too high"
        .ok (.ofAddress (if isDouble then addr + BitVec.ofNat 32 pos * 4 else addr))
  | some (.mode5 base opc isDouble) =>
    match σ.reg2const.find? base with
    | none => .ok (σ.addressOfUnknownBase P MI.memoperands base)
    | some value => do
      let address := addOrSub opc.isSub value (BitVec.ofNat 32 opc.offset.val * 4)
      assertThat (!isDouble || pos < 2) "Position argument too high"
      .ok (.ofAddress (if isDouble then address + BitVec.ofNat 32 pos * 4 else address))
  | some (.mode4 submode base numopreglist) =>
    match σ.reg2const.find? base with
    | none => .ok .getUnknownAddress
    | some value => do
      assertThat (pos < numopreglist) "Asking for more registers than in list"
      .ok (.ofAddress (startAddress submode value numopreglist + BitVec.ofNat 32 pos * 4))

/-- The symbols that live-in registers hold are those of the parameters. -/
def mapParameters : List ℕ → List (ℕ × String) → ConstantValueDomain → ConstantValueDomain
  | _, [], σ => σ
  | liveinregs, (regnr, argstr) :: rest, σ =>
    if regnr ∈ liveinregs then
      mapParameters (liveinregs.filter (· ≠ regnr)) rest
        (match σ.reg2symbol.find? regnr with
          | some glvar => { σ with fnparam2symbol := σ.fnparam2symbol.insert argstr glvar }
          | none => σ)
    else mapParameters liveinregs rest σ

/-- What happens at the start of a function and upon a call. -/
def entered (σ : ConstantValueDomain) : ConstantValueDomain :=
  let σ :=
    match MI.functionEntry with
    | none => σ
    | some entry => mapParameters entry.liveinregs entry.debugValues σ
  if MI.isCall then { σ with fnparam2symbol := .empty } else σ

def enter (σ : ConstantValueDomain) : Except Fault ConstantValueDomain := do
  assertThat (MI.functionEntry.isNone || σ.fnparam2symbol.entries.isEmpty)
    "Expected the param to symbol mapping to be empty"
  .ok (entered MI σ)

/-- The destination gets a value and a symbol, or nothing is known about it. -/
def setRegister (dest : ℕ) (value : Option Word) (sym : Option GlobalVariable)
    (σ : ConstantValueDomain) : ConstantValueDomain :=
  { σ with
    reg2const := σ.reg2const.assign dest value
    reg2symbol := σ.reg2symbol.assign dest sym }

def transferLEApcrel (dest : ℕ) (operand : MachineOperand) (σ : ConstantValueDomain) :
    Except Fault ConstantValueDomain :=
  match operand with
  | .cpi cpi _ => do
    let cpeaddress ← P.getConstPoolEntryAddr MI.function cpi
    .ok (setRegister dest (some cpeaddress) none σ)
  | _ => .ok (setRegister dest none none σ)

def transferMOVi16 (dest : ℕ) (operand : MachineOperand) (σ : ConstantValueDomain) :
    Except Fault ConstantValueDomain := do
  assertThat (dest < 16) "Destination register out of bounds"
  let σ := { σ with reg2symbol := σ.reg2symbol.erase dest }
  match operand with
  | .imm imm =>
    .ok { σ with reg2const := σ.reg2const.insert dest (0x0000ffff &&& BitVec.ofInt 32 imm) }
  | .global (.globalVariable glvar) _ =>
    match P.glvar2addr glvar with
    | some addr => .ok { σ with reg2const := σ.reg2const.insert dest (0x0000ffff &&& addr) }
    | none => .ok σ
  | .global (.function _) _ => .ok σ
  | _ => .ok { σ with reg2const := σ.reg2const.erase dest }

def transferMOVTi16 (dest : ℕ) (operand : MachineOperand) (σ : ConstantValueDomain) :
    Except Fault ConstantValueDomain := do
  assertThat (dest < 16) "Destination register out of bounds"
  let σ := { σ with reg2symbol := σ.reg2symbol.erase dest }
  match operand with
  | .imm imm =>
    match σ.reg2const.find? dest with
    | some value =>
      .ok { σ with
        reg2const := σ.reg2const.insert dest
          (((0x0000ffff &&& BitVec.ofInt 32 imm) <<< 16) ||| value) }
    | none => .ok σ
  | .global (.globalVariable glvar) _ =>
    let σ :=
      match P.glvar2addr glvar, σ.reg2const.find? dest with
      | some addr, some value =>
        { σ with reg2const := σ.reg2const.insert dest ((0xffff0000 &&& addr) ||| value) }
      | _, _ => σ
    .ok { σ with reg2symbol := σ.reg2symbol.insert dest glvar }
  | .global (.function _) _ => .ok σ
  | _ => .ok { σ with reg2const := σ.reg2const.erase dest }

/-- An instruction that adds a constant to a register keeps the symbol. -/
def transferAdd (dest src : ℕ) (summand : Word) (σ : ConstantValueDomain) : ConstantValueDomain :=
  setRegister dest ((σ.reg2const.find? src).map (· + summand)) (σ.reg2symbol.find? src) σ

def transferLDRcp (dest cpi : ℕ) (σ : ConstantValueDomain) : Except Fault ConstantValueDomain := do
  let σ := { σ with reg2symbol := σ.reg2symbol.erase dest }
  let cpaddress ← P.getConstPoolEntryAddr MI.function cpi
  let σ :=
    match P.addr2values cpaddress with
    | some value => { σ with reg2const := σ.reg2const.insert dest value }
    | none => σ
  .ok (match P.addr2symbol cpaddress with
    | some glvar => { σ with reg2symbol := σ.reg2symbol.insert dest glvar }
    | none => σ)

def transferLDRi12 (dest : ℕ) (σ : ConstantValueDomain) : Except Fault ConstantValueDomain := do
  let addr ← getDataAccessAddress P MI { σ with reg2symbol := σ.reg2symbol.erase dest } 0
  match addr.precise? with
  | some concreteAddr =>
    match P.addr2values concreteAddr with
    | some value => .ok (setRegister dest (some value) none σ)
    | none =>
      .ok (setRegister dest (σ.addr2const.find? concreteAddr) (σ.addr2symbol.find? concreteAddr) σ)
  | none => .ok (setRegister dest none none σ)

def transferSTRi12 (src : ℕ) (σ : ConstantValueDomain) : Except Fault ConstantValueDomain := do
  let addr ← getDataAccessAddress P MI σ 0
  match addr.precise? with
  | some concreteAddr =>
    .ok (σ.performStoreValue MI.memoperands concreteAddr (σ.reg2const.find? src)
      (σ.reg2symbol.find? src))
  | none => σ.performStoreUnknownAddress P addr

/-- A base register that is moved by a number of bytes. -/
def moveBase (base : ℕ) (offset : Word) (σ : ConstantValueDomain) : ConstantValueDomain :=
  match σ.reg2const.find? base with
  | some value => { σ with reg2const := σ.reg2const.insert base (value + offset) }
  | none => σ

def forgetSymbol (base : ℕ) (σ : ConstantValueDomain) : ConstantValueDomain :=
  { σ with reg2symbol := σ.reg2symbol.erase base }

/-- The stored registers of a store multiple, from position `pos` on. -/
def storeRegisters : List ℕ → ℕ → ConstantValueDomain → Except Fault ConstantValueDomain
  | [], _, σ => .ok σ
  | srcnr :: regs, pos, σ => do
    let addr ← getDataAccessAddress P MI σ pos
    match addr.precise? with
    | some concreteAddr =>
      storeRegisters regs (pos + 1)
        (σ.performStoreValue MI.memoperands concreteAddr (σ.reg2const.find? srcnr)
          (σ.reg2symbol.find? srcnr))
    | none => σ.performStoreUnknownAddress P addr

def transferSTMDB_UPD (base : ℕ) (regs : RegList) (σ : ConstantValueDomain) :
    Except Fault ConstantValueDomain := do
  let σ ← storeRegisters P MI regs.regs 0 σ
  .ok (forgetSymbol base (moveBase base (-(4 * BitVec.ofNat 32 regs.regs.length)) σ))

/-- The loaded registers of a load multiple, from position `pos` on. -/
def loadRegisters (base : ℕ) : List ℕ → ℕ → ConstantValueDomain → Except Fault ConstantValueDomain
  | [], _, σ => .ok σ
  | destnr :: regs, pos, σ => do
    assertThat (destnr != base) "Cannot load into indexed base register"
    let σ := setRegister destnr none none σ
    let addr ← getDataAccessAddress P MI σ pos
    match addr.precise? with
    | some concreteAddr =>
      loadRegisters base regs (pos + 1)
        (setRegister destnr (σ.addr2const.find? concreteAddr) (σ.addr2symbol.find? concreteAddr) σ)
    | none => loadRegisters base regs (pos + 1) σ

/-- The loop over the registers ends at once for `LDMIA_RET`. -/
def transferLDMIA (base : ℕ) (loaded : List ℕ) (number : ℕ) (σ : ConstantValueDomain) :
    Except Fault ConstantValueDomain := do
  let σ ← loadRegisters P MI base loaded 0 σ
  .ok (forgetSymbol base (moveBase base (4 * BitVec.ofNat 32 number) σ))

def transferSTR_PRE_IMM (base : ℕ) (imm : ℤ) (σ : ConstantValueDomain) :
    Except Fault ConstantValueDomain := do
  let addr ← getDataAccessAddress P MI σ 0
  let σ ←
    match addr.precise? with
    | some concreteAddr => .ok (σ.performStoreUnknownValue concreteAddr)
    | none => σ.performStoreUnknownAddress P addr
  .ok (forgetSymbol base (moveBase base (BitVec.ofInt 32 imm) σ))

/-- `LDR_PRE_IMM` and `LDR_POST_IMM`: the symbol of the base register is kept. -/
def transferLDRIndexed (dest base : ℕ) (offset : Word) (σ : ConstantValueDomain) :
    Except Fault ConstantValueDomain := do
  let σ := moveBase base offset σ
  assertThat (dest != base) "Cannot load into indexed base register"
  .ok (setRegister dest none none σ)

/-- All other instructions: forgets what they may store to and what they define. -/
def transferDefault (σ : ConstantValueDomain) : Except Fault ConstantValueDomain := do
  let σ ←
    if MI.opcode.mayStore then do
      let numAcc ← MI.opcode.getNumOfDataAccesses
      ConstantValueDomain.forgetAccesses P (getDataAccessAddress P MI) numAcc 0 σ
    else .ok σ
  .ok (.forgetDefs MI.defs σ)

def transferOpcode (σ : ConstantValueDomain) : Except Fault ConstantValueDomain :=
  match MI.opcode with
  | .LEApcrel dest operand => transferLEApcrel P MI dest operand σ
  | .MOVi dest imm => do
    assertThat (dest < 16) "Destination register out of bounds"
    .ok (setRegister dest (some (BitVec.ofInt 32 imm)) none σ)
  | .MOVi16 dest operand => transferMOVi16 P dest operand σ
  | .MOVTi16 dest operand => transferMOVTi16 P dest operand σ
  | .MVNi dest imm => do
    assertThat (dest < 16) "Destination register out of bounds"
    .ok (setRegister dest (some (BitVec.ofInt 32 imm ^^^ 0xFFFFFFFF)) none σ)
  | .MOVr dest src =>
    .ok (setRegister dest (σ.reg2const.find? src) (σ.reg2symbol.find? src) σ)
  | .SUBri dest src imm => .ok (transferAdd dest src (-BitVec.ofInt 32 imm) σ)
  | .ADDri dest src imm => .ok (transferAdd dest src (BitVec.ofInt 32 imm) σ)
  | .ADDrr dest src src2 =>
    .ok (setRegister dest
      ((σ.reg2const.find? src).bind fun a => (σ.reg2const.find? src2).map fun b => a + b) none σ)
  | .ADDrsi dest src src2 shift offset =>
    .ok (setRegister dest
      (if shift = .lsl then
        (σ.reg2const.find? src).bind fun a =>
          (σ.reg2const.find? src2).map fun (b : Word) => a + (b <<< offset : Word)
      else none) none σ)
  | .BICri dest src imm =>
    .ok (setRegister dest ((σ.reg2const.find? src).map fun a => a &&& ~~~BitVec.ofInt 32 imm)
      none σ)
  | .LDRi12 dest _ _ => transferLDRi12 P MI dest σ
  | .LDRcp dest cpi => transferLDRcp P MI dest cpi σ
  | .STRi12 src _ _ => transferSTRi12 P MI src σ
  | .STMDB_UPD base regs => transferSTMDB_UPD P MI base regs σ
  | .VSTMDDB_UPD base regs =>
    .ok (forgetSymbol base (moveBase base (-(4 * 2 * BitVec.ofNat 32 regs.regs.length)) σ))
  | .LDMIA_UPD base regs => transferLDMIA P MI base regs.regs regs.regs.length σ
  | .LDMIA_RET base regs numImplicit =>
    transferLDMIA P MI base [] (regs.regs.length + numImplicit) σ
  | .VLDMDIA_UPD base regs numImplicit =>
    .ok (forgetSymbol base
      (moveBase base (4 * 2 * BitVec.ofNat 32 (regs.regs.length + numImplicit)) σ))
  | .VLDMSIA_UPD base regs numImplicit =>
    .ok (forgetSymbol base
      (moveBase base (4 * 1 * BitVec.ofNat 32 (regs.regs.length + numImplicit)) σ))
  | .STR_PRE_IMM _ base imm => transferSTR_PRE_IMM P MI base imm σ
  | .LDR_POST_IMM dest base opc => transferLDRIndexed dest base (BitVec.ofInt 32 opc.getImm) σ
  | .LDR_PRE_IMM dest base imm => transferLDRIndexed dest base (BitVec.ofInt 32 imm) σ
  | .BL | .BL_pred => .ok (setRegister 14 none none σ)
  | _ => transferDefault P MI σ

/-- A predicated instruction may have had no effect. -/
def transfer (σ : ConstantValueDomain) : Except Fault ConstantValueDomain := do
  if σ.bot then .ok σ else
  let predecessorInfo := σ
  let σ ← enter MI σ
  let σ ← transferOpcode P MI σ
  .ok (if MI.predicated then σ.join predecessorInfo else σ)

end ARM
end Llvmta
