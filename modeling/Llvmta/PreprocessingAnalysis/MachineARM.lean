import Llvmta.PreprocessingAnalysis.ConstantValueDomainARM
import Llvmta.PreprocessingAnalysis.MachineState

/-!
# ARM instructions on concrete states

What an instruction does to the core registers and the memory. The opcodes that
the transfer function does not handle may set the registers that they define to
anything; if they are stores, their bytes and their address are given.
-/

namespace Llvmta
namespace ARM

open ByteMemory

/-- The carry flag takes part in one kind of shift. -/
structure State extends MachineState where
  carry : Bool

namespace State

def setReg (s : State) (dest : ℕ) (value : Word) : State :=
  { s with regs := Function.update s.regs dest value }

theorem setReg_regs_self (s : State) (dest : ℕ) (value : Word) :
    (s.setReg dest value).regs dest = value := Function.update_self dest _ s.regs

theorem setReg_regs_of_ne (s : State) {dest r : ℕ} (h : r ≠ dest) (value : Word) :
    (s.setReg dest value).regs r = s.regs r := Function.update_of_ne h _ s.regs

@[simp] theorem setReg_mem (s : State) (dest : ℕ) (value : Word) :
    (s.setReg dest value).mem = s.mem := rfl

/-- Consecutive words are loaded into the registers of a list. -/
def loadWords (mem : Word → BitVec 8) : List ℕ → Word → State → State
  | [], _, s => s
  | destnr :: regs, addr, s => loadWords mem regs (addr + 4) (s.setReg destnr (wordAt mem addr))

end State

/-- The shifted register of an operand; a shift right by nothing is one by 32. -/
def shifted (carry : Bool) (shift : ShiftOpc) (offset : ℕ) (w : Word) : Word :=
  match shift with
  | .no_shift => w
  | .lsl => w <<< offset
  | .asr => w.sshiftRight (if offset = 0 then 32 else offset)
  | .lsr => if offset = 0 then 0 else w >>> offset
  | .ror => w.rotateRight offset
  | .rrx => BitVec.cons carry (w.extractLsb' 1 31)

/-- The first address that an access touches. -/
def target (s : State) : AddrMode → Word
  | .i12 base imm => s.regs base + i12Offset imm
  | .post base => s.regs base
  | .mode2 base offset opc =>
    addOrSub opc.isSub (s.regs base) (shifted s.carry opc.shift opc.offset.val (s.regs offset))
  | .mode3 base none opc _ =>
    addOrSub opc.isSub (s.regs base) (BitVec.ofNat 32 opc.offset.val)
  | .mode3 base (some offset) opc _ => addOrSub opc.isSub (s.regs base) (s.regs offset)
  | .mode5 base opc _ => addOrSub opc.isSub (s.regs base) (BitVec.ofNat 32 opc.offset.val * 4)
  | .mode4 submode base numopreglist => startAddress submode (s.regs base) numopreglist

def doubleBytes (w : BitVec 64) : List (BitVec 8) :=
  bytesOf (w.extractLsb' 0 32) ++ bytesOf (w.extractLsb' 32 32)

/-- The single-precision registers are the halves of the double-precision ones. -/
def singleRegister (s : State) (n : ℕ) : Word := (s.fregs (n / 2)).extractLsb' (32 * (n % 2)) 32

/-- The bytes that are stored. -/
def storedBytes (s : State) : Opcode → Option (List (BitVec 8))
  | .STRi12 src _ _ | .STR_PRE_IMM src _ _ | .STR_POST_IMM src _ _ | .STR_POST_REG src _ _ _
  | .STRrs src _ _ _ | .STR_PRE_REG src _ _ _ => some (bytesOf (s.regs src))
  | .STRBi12 src _ _ | .STRB_PRE_IMM src _ _ | .STRB_POST_IMM src _ _ | .STRBrs src _ _ _
  | .STRB_PRE_REG src _ _ _ => some ((bytesOf (s.regs src)).take 1)
  | .STRH src _ _ _ | .STRH_PRE src _ _ _ | .STRH_POST src _ _ _ =>
    some ((bytesOf (s.regs src)).take 2)
  | .STRD src src2 _ _ _ => some (bytesOf (s.regs src) ++ bytesOf (s.regs src2))
  | .VSTRS src _ _ => some (bytesOf (singleRegister s src))
  | .VSTRD src _ _ => some (doubleBytes (s.fregs src))
  | .STMIA _ regs | .STMIB _ regs | .STMDA _ regs | .STMDB _ regs | .STMIA_UPD _ regs
  | .STMIB_UPD _ regs | .STMDA_UPD _ regs | .STMDB_UPD _ regs =>
    some (regs.regs.flatMap fun r => bytesOf (s.regs r))
  | .VSTMDIA _ regs | .VSTMDIA_UPD _ regs | .VSTMDDB_UPD _ regs =>
    some (regs.regs.flatMap fun r => doubleBytes (s.fregs r))
  | _ => none

/-- What a store does to the registers. -/
def RegistersAfterStore (MI : Instr) (s s' : State) : Prop :=
  match MI.opcode with
  | .STRi12 .. => s'.regs = s.regs
  | .STR_PRE_IMM _ base imm => s'.regs = (s.setReg base (s.regs base + i12Offset imm)).regs
  | .STMDB_UPD base regs =>
    s'.regs = (s.setReg base (s.regs base - 4 * BitVec.ofNat 32 regs.regs.length)).regs
  | .VSTMDDB_UPD base regs =>
    s'.regs = (s.setReg base (s.regs base - 4 * 2 * BitVec.ofNat 32 regs.regs.length)).regs
  | _ => ∀ r, .gpr r ∉ MI.defs → s'.regs r = s.regs r

/-- The opcodes whose effect on the registers is not modelled further. -/
def Opcode.isUninterpreted : Opcode → Bool
  | PLDi12 .. | PLDrs .. | other _ => true
  | _ => false

variable (L : LinkedProgram) (MI : Instr)

/-- An instruction whose condition holds. -/
inductive Execute (s : State) : State → Prop
  | leapcrel {dest : ℕ} {operand : MachineOperand} (h : MI.opcode = .LEApcrel dest operand) :
    Execute s (s.setReg dest (L.operandValue MI.function operand))
  | movi {dest : ℕ} {imm : ℤ} (h : MI.opcode = .MOVi dest imm) :
    Execute s (s.setReg dest (BitVec.ofInt 32 imm))
  | movi16 {dest : ℕ} {operand : MachineOperand} (h : MI.opcode = .MOVi16 dest operand) :
    Execute s (s.setReg dest (0x0000ffff &&& L.operandValue MI.function operand))
  | movti16Imm {dest : ℕ} {imm : ℤ} (h : MI.opcode = .MOVTi16 dest (.imm imm)) :
    Execute s (s.setReg dest
      (((0x0000ffff &&& BitVec.ofInt 32 imm) <<< 16) ||| (0x0000ffff &&& s.regs dest)))
  | movti16 {dest : ℕ} {operand : MachineOperand} (h : MI.opcode = .MOVTi16 dest operand)
    (himm : ∀ imm, operand ≠ .imm imm) :
    Execute s (s.setReg dest
      ((0xffff0000 &&& L.operandValue MI.function operand) ||| (0x0000ffff &&& s.regs dest)))
  | mvni {dest : ℕ} {imm : ℤ} (h : MI.opcode = .MVNi dest imm) :
    Execute s (s.setReg dest (~~~BitVec.ofInt 32 imm))
  | movr {dest src : ℕ} (h : MI.opcode = .MOVr dest src) :
    Execute s (s.setReg dest (s.regs src))
  | subri {dest src : ℕ} {imm : ℤ} (h : MI.opcode = .SUBri dest src imm) :
    Execute s (s.setReg dest (s.regs src - BitVec.ofInt 32 imm))
  | addri {dest src : ℕ} {imm : ℤ} (h : MI.opcode = .ADDri dest src imm) :
    Execute s (s.setReg dest (s.regs src + BitVec.ofInt 32 imm))
  | addrr {dest src src2 : ℕ} (h : MI.opcode = .ADDrr dest src src2) :
    Execute s (s.setReg dest (s.regs src + s.regs src2))
  | addrsi {dest src src2 : ℕ} {shift : ShiftOpc} {offset : ℕ}
    (h : MI.opcode = .ADDrsi dest src src2 shift offset) :
    Execute s (s.setReg dest (s.regs src + shifted s.carry shift offset (s.regs src2)))
  | bicri {dest src : ℕ} {imm : ℤ} (h : MI.opcode = .BICri dest src imm) :
    Execute s (s.setReg dest (s.regs src &&& ~~~BitVec.ofInt 32 imm))
  | ldri12 {dest base : ℕ} {imm : ℤ} (h : MI.opcode = .LDRi12 dest base imm) :
    Execute s (s.setReg dest (wordAt s.mem (s.regs base + i12Offset imm)))
  | ldrcp {dest cpi : ℕ} (h : MI.opcode = .LDRcp dest cpi) :
    Execute s (s.setReg dest (wordAt s.mem (L.constPoolEntry MI.function cpi)))
  | ldrPre {dest base : ℕ} {imm : ℤ} (h : MI.opcode = .LDR_PRE_IMM dest base imm) :
    Execute s ((s.setReg base (s.regs base + i12Offset imm)).setReg dest
      (wordAt s.mem (s.regs base + i12Offset imm)))
  | ldrPost {dest base : ℕ} {opc : AM2Opc} (h : MI.opcode = .LDR_POST_IMM dest base opc) :
    Execute s ((s.setReg base
      (addOrSub opc.isSub (s.regs base) (BitVec.ofNat 32 opc.offset.val))).setReg dest
        (wordAt s.mem (s.regs base)))
  | ldmia {base : ℕ} {regs : RegList}
    (h : MI.opcode = .LDMIA_UPD base regs ∨ ∃ n, MI.opcode = .LDMIA_RET base regs n) :
    Execute s (State.loadWords s.mem regs.regs (s.regs base)
      (s.setReg base (s.regs base + 4 * BitVec.ofNat 32 regs.regs.length)))
  | vldm {base words : ℕ} {regs : RegList}
    (h : (∃ n, MI.opcode = .VLDMDIA_UPD base regs n ∧ words = 2) ∨
      ∃ n, MI.opcode = .VLDMSIA_UPD base regs n ∧ words = 1) (fregs : ℕ → BitVec 64) :
    Execute s { s.setReg base
      (s.regs base + 4 * BitVec.ofNat 32 words * BitVec.ofNat 32 regs.regs.length) with
        fregs := fregs }
  | call (h : MI.opcode = .BL ∨ MI.opcode = .BL_pred) (returnAddress : Word) :
    Execute s (s.setReg 14 returnAddress)
  | store {mode : AddrMode} {bytes : List (BitVec 8)} {s' : State}
    (hmode : MI.opcode.addrMode = some mode) (hbytes : storedBytes s MI.opcode = some bytes)
    (hmem : s'.mem = write s.mem (target s mode) bytes)
    (hregs : RegistersAfterStore MI s s') : Execute s s'
  | other {s' : State} (h : MI.opcode.isUninterpreted)
    (hregs : ∀ r, .gpr r ∉ MI.defs → s'.regs r = s.regs r)
    (hmem : MI.opcode ≠ .other true → s'.mem = s.mem) : Execute s s'

/-- An instruction, which may set the flags; it is skipped if its condition does not
hold. -/
inductive Step (s : State) : Bool → State → Prop
  | executed {s' : State} (h : Execute L MI s s') (carry : Bool) :
    Step s true { s' with carry := carry }
  | skipped (h : MI.predicated) : Step s false s

end ARM
end Llvmta
