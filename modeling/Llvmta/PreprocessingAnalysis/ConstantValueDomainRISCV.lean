import Llvmta.PreprocessingAnalysis.ConstantValueDomain

/-!
# Constant values on RISC-V

The addresses of data accesses and the transfer function for `riscv32`. The
operands of the handled opcodes are typed: registers of the general-purpose class
by their numbers, and the operand that may be an immediate, a global or a constant
pool entry.
-/

namespace Llvmta
namespace RISCV

open Checked

inductive Opcode where
  | LUI (dest : ℕ) (operand : MachineOperand)
  | ADDI (dest src : ℕ) (operand : MachineOperand)
  | ADD (dest src src2 : ℕ)
  | SUB (dest src src2 : ℕ)
  | LW (dest base : ℕ) (offset : MachineOperand)
  | SW (src base : ℕ) (offset : MachineOperand)
  | FLW (dest base : ℕ) (offset : MachineOperand)
  | FLD (dest base : ℕ) (offset : MachineOperand)
  | FSW (src base : ℕ) (offset : MachineOperand)
  | FSD (src base : ℕ) (offset : MachineOperand)
  | SB (src base : ℕ) (offset : MachineOperand)
  | SH (src base : ℕ) (offset : MachineOperand)
  | PseudoCALL
  | other (mayStore : Bool)
  deriving DecidableEq, Repr

def Opcode.mayStore : Opcode → Bool
  | SW .. | FSW .. | FSD .. | SB .. | SH .. => true
  | other mayStore => mayStore
  | _ => false

/-- `getNumOfDataAccesses`, for instructions that store. -/
def Opcode.getNumOfDataAccesses : Opcode → Except Fault ℕ
  | LW .. | SW .. | FLW .. | FSW .. | SB .. | SH .. => .ok 1
  | FLD .. | FSD .. => .ok 2
  | _ => .error (.assertion "We do not support this instruction opcode")

/-- Base register and offset of the opcodes whose addresses are computed. -/
def Opcode.baseAndOffset : Opcode → Option (ℕ × MachineOperand)
  | FLW _ base offset | FSW _ base offset | FLD _ base offset | FSD _ base offset
  | LW _ base offset | SW _ base offset => some (base, offset)
  | _ => none

def Opcode.isDouble : Opcode → Bool
  | FLD .. | FSD .. => true
  | _ => false

variable (P : StaticAddresses) (MI : MachineInstr Opcode)

def getDataAccessAddress (σ : ConstantValueDomain) (pos : ℕ) : Except Fault DataAddress :=
  if σ.bot then .ok (.interval 1 0) else
  match MI.opcode.baseAndOffset with
  | none => .ok .getUnknownAddress
  | some (base, offset) => do
    assertThat (match offset with | .imm _ | .global .. => true | _ => false)
      "MI->getOperand(2).isImm() || MI->getOperand(2).isGlobal()"
    match σ.reg2const.find? base with
    | none => .ok (σ.addressOfUnknownBase P MI.memoperands base)
    | some value =>
      match offset with
      | .imm imm => do
        assertThat (pos == 0 || MI.opcode.isDouble) "pos == 0 || FLD || FSD"
        .ok (.ofAddress (value + BitVec.ofInt 32 imm + BitVec.ofNat 32 pos * 4))
      | .global (.globalVariable glvar) _ =>
        match P.glvar2addr glvar with
        | some glvaraddr => do
          let address := value + (0x00000fff &&& glvaraddr)
          assertThat (address == glvaraddr) "unexpected"
          assertThat (pos == 0 || MI.opcode.isDouble) "pos == 0 || FLD || FSD"
          .ok (.ofAddress (address + BitVec.ofNat 32 pos * 4))
        | none => .ok .getUnknownAddress
      | _ => .ok .getUnknownAddress

/-- The symbols of two operands must not be mixed. -/
def symbolsCompatible (isSub : Bool) : Option GlobalVariable → Option GlobalVariable → Bool
  | some sym, some sym2 => isSub && sym == sym2
  | _, _ => true

def performBinaryOperation (isSub : Bool) (dest src src2 : ℕ) (binop : Word → Word → Word)
    (σ : ConstantValueDomain) : Except Fault ConstantValueDomain := do
  let sym := σ.reg2symbol.find? src
  let sym2 := σ.reg2symbol.find? src2
  assertThat (symbolsCompatible isSub sym sym2) "Cannot combine two differing symbols"
  .ok { σ with
    reg2symbol := σ.reg2symbol.assign dest (sym <|> sym2)
    reg2const := σ.reg2const.assign dest
      ((σ.reg2const.find? src).bind fun a => (σ.reg2const.find? src2).map (binop a)) }

def transferLUI (dest : ℕ) (operand : MachineOperand) (σ : ConstantValueDomain) :
    Except Fault ConstantValueDomain := do
  assertThat (dest < 32) "Destination register out of bounds"
  let σ := { σ with reg2symbol := σ.reg2symbol.erase dest }
  match operand with
  | .imm imm =>
    .ok { σ with
      reg2const := σ.reg2const.insert dest ((0x000fffff &&& BitVec.ofInt 32 imm) <<< 12) }
  | .global (.globalVariable glvar) _ =>
    let σ :=
      match P.glvar2addr glvar with
      | some addr => { σ with reg2const := σ.reg2const.insert dest (0xfffff000 &&& addr) }
      | none => σ
    .ok { σ with reg2symbol := σ.reg2symbol.insert dest glvar }
  | .global (.function _) _ => .ok σ
  | .cpi cpi _ => do
    let cpeaddress ← P.getConstPoolEntryAddr MI.function cpi
    .ok { σ with reg2const := σ.reg2const.insert dest (cpeaddress &&& 0xfffff000) }
  | .other _ => .error (.assertion "unexpected")

def transferADDI (dest src : ℕ) (operand : MachineOperand) (σ : ConstantValueDomain) :
    Except Fault ConstantValueDomain :=
  match operand with
  | .imm imm =>
    .ok { σ with
      reg2const := σ.reg2const.assign dest
        ((σ.reg2const.find? src).map fun value => value + BitVec.ofInt 32 imm)
      reg2symbol := σ.reg2symbol.assign dest (σ.reg2symbol.find? src) }
  | .global (.globalVariable glvar) _ =>
    match P.glvar2addr glvar with
    | some addr => do
      assertThat (match σ.reg2symbol.find? src with
        | some sym => dest != src || sym == glvar
        | none => true) "Internal assumption"
      .ok { σ with
        reg2const := σ.reg2const.assign dest
          ((σ.reg2const.find? src).map fun value => value + (0x00000fff &&& addr))
        reg2symbol := σ.reg2symbol.assign dest (σ.reg2symbol.find? src) }
    | none =>
      .ok { σ with
        reg2const := σ.reg2const.erase dest
        reg2symbol := σ.reg2symbol.erase dest }
  | .global (.function _) _ => .ok σ
  | .cpi cpi _ => do
    let cpeaddress ← P.getConstPoolEntryAddr MI.function cpi
    let value ← expect (σ.reg2const.find? src) "Unexpected fail to load constant"
    assertThat (value + (cpeaddress &&& 0x00000fff) == cpeaddress)
      "Internal assumption about loading constant violated"
    .ok { σ with
      reg2const := σ.reg2const.insert dest (value + (cpeaddress &&& 0x00000fff))
      reg2symbol := σ.reg2symbol.erase dest }
  | .other _ => .error (.assertion "unexpected")

def transferLW (dest : ℕ) (σ : ConstantValueDomain) : Except Fault ConstantValueDomain := do
  let addr ← getDataAccessAddress P MI σ 0
  match addr.precise? with
  | some concreteAddr =>
    match P.addr2values concreteAddr with
    | some value =>
      .ok { σ with
        reg2symbol := σ.reg2symbol.erase dest
        reg2const := σ.reg2const.insert dest value }
    | none =>
      .ok { σ with
        reg2symbol := σ.reg2symbol.assign dest (σ.addr2symbol.find? concreteAddr)
        reg2const := σ.reg2const.assign dest (σ.addr2const.find? concreteAddr) }
  | none =>
    .ok { σ with
      reg2symbol := σ.reg2symbol.erase dest
      reg2const := σ.reg2const.erase dest }

def transferSW (src : ℕ) (σ : ConstantValueDomain) : Except Fault ConstantValueDomain := do
  let addr ← getDataAccessAddress P MI σ 0
  match addr.precise? with
  | some concreteAddr =>
    .ok (σ.performStoreValue MI.memoperands concreteAddr (σ.reg2const.find? src)
      (σ.reg2symbol.find? src))
  | none => σ.performStoreUnknownAddress P addr

/-- All other instructions: forgets what they may store to and what they define. -/
def transferDefault (σ : ConstantValueDomain) : Except Fault ConstantValueDomain := do
  let σ ←
    if MI.opcode.mayStore then do
      let numAcc ← MI.opcode.getNumOfDataAccesses
      ConstantValueDomain.forgetAccesses P (getDataAccessAddress P MI) numAcc 0 σ
    else .ok σ
  .ok (.forgetDefs MI.defs σ)

/-- `reg2const[0]` adds the missing entry. -/
def subscriptZero (σ : ConstantValueDomain) : ConstantValueDomain :=
  match σ.reg2const.find? 0 with
  | some _ => σ
  | none => { σ with reg2const := σ.reg2const.insert 0 0 }

def transfer (σ : ConstantValueDomain) : Except Fault ConstantValueDomain := do
  if σ.bot then .ok σ else
  let σ := subscriptZero σ
  assertThat (σ.reg2const.find? 0 == some 0) "Someone wrote to register 0"
  match MI.opcode with
  | .LUI dest operand => transferLUI P MI dest operand σ
  | .ADDI dest src operand => transferADDI P MI dest src operand σ
  | .ADD dest src src2 => performBinaryOperation false dest src src2 (· + ·) σ
  | .SUB dest src src2 => performBinaryOperation true dest src src2 (· - ·) σ
  | .LW dest _ _ => transferLW P MI dest σ
  | .SW src _ _ => transferSW P MI src σ
  | .PseudoCALL =>
    .ok { σ with reg2const := σ.reg2const.erase 1, reg2symbol := σ.reg2symbol.erase 1 }
  | _ => transferDefault P MI σ

end RISCV
end Llvmta
