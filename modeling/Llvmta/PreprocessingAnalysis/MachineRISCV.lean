import Llvmta.PreprocessingAnalysis.ConstantValueDomainRISCV
import Llvmta.PreprocessingAnalysis.MachineState

/-!
# RISC-V instructions on concrete states

What an instruction of the 32-bit base set does to the registers and the memory.
The opcodes that the transfer function does not handle may set the registers that
they define to anything.
-/

namespace Llvmta
namespace RISCV

open ByteMemory

/-- In every state the register x0 is zero. -/
structure State extends MachineState where
  zero : regs 0 = 0

namespace State

/-- What a register holds after a value is written to it. -/
def result (dest : ℕ) (value : Word) : Word := if dest = 0 then 0 else value

def setReg (s : State) (dest : ℕ) (value : Word) : State :=
  { s with
    regs := Function.update s.regs dest (result dest value)
    zero := by
      by_cases h : dest = 0
      · subst h
        exact Function.update_self 0 _ s.regs
      · rw [Function.update_of_ne (Ne.symm h)]
        exact s.zero }

def store (s : State) (addr : Word) (bytes : List (BitVec 8)) : State :=
  { s with mem := write s.mem addr bytes }

@[simp] theorem setReg_mem (s : State) (dest : ℕ) (value : Word) :
    (s.setReg dest value).mem = s.mem := rfl

theorem setReg_regs_self (s : State) (dest : ℕ) (value : Word) :
    (s.setReg dest value).regs dest = result dest value := Function.update_self dest _ s.regs

theorem setReg_regs_of_ne (s : State) {dest r : ℕ} (h : r ≠ dest) (value : Word) :
    (s.setReg dest value).regs r = s.regs r := Function.update_of_ne h _ s.regs

@[simp] theorem store_regs (s : State) (addr : Word) (bytes : List (BitVec 8)) :
    (s.store addr bytes).regs = s.regs := rfl

@[simp] theorem store_mem (s : State) (addr : Word) (bytes : List (BitVec 8)) :
    (s.store addr bytes).mem = write s.mem addr bytes := rfl

end State

/-- `%hi`: rounded so that adding `%lo` gives the address. -/
def hi (addr : Word) : Word := (addr + 0x800) &&& 0xfffff000

/-- `%lo`: the lowest 12 bits, sign-extended. -/
def lo (addr : Word) : Word := (addr.setWidth 12).signExtend 32

variable (L : LinkedProgram) (function : ℕ)

/-- The value that LUI loads. -/
def upperImmediate : MachineOperand → Word
  | .imm imm => BitVec.ofInt 20 imm ++ 0#12
  | operand => hi (L.operandValue function operand)

/-- The value that ADDI, loads and stores add to a register. -/
def lowerImmediate : MachineOperand → Word
  | .imm imm => BitVec.ofInt 32 imm
  | operand => lo (L.operandValue function operand)

/-- Base, offset and bytes of the instructions that store. -/
def storedBytes (s : State) : Opcode → Option (ℕ × MachineOperand × List (BitVec 8))
  | .SW src base offset => some (base, offset, bytesOf (s.regs src))
  | .FSW src base offset => some (base, offset, bytesOf ((s.fregs src).setWidth 32))
  | .FSD src base offset =>
    some (base, offset, bytesOf ((s.fregs src).extractLsb' 0 32) ++
      bytesOf ((s.fregs src).extractLsb' 32 32))
  | .SB src base offset => some (base, offset, (bytesOf (s.regs src)).take 1)
  | .SH src base offset => some (base, offset, (bytesOf (s.regs src)).take 2)
  | _ => none

/-- The opcodes whose effect on the registers is not modelled further. -/
def Opcode.isUninterpreted : Opcode → Bool
  | FLW .. | FLD .. | other _ => true
  | _ => false

/-- One instruction. -/
inductive Step (MI : MachineInstr Opcode) (s : State) : State → Prop
  | lui {dest : ℕ} {operand : MachineOperand} (h : MI.opcode = .LUI dest operand) :
    Step MI s (s.setReg dest (upperImmediate L MI.function operand))
  | addi {dest src : ℕ} {operand : MachineOperand} (h : MI.opcode = .ADDI dest src operand) :
    Step MI s (s.setReg dest (s.regs src + lowerImmediate L MI.function operand))
  | add {dest src src2 : ℕ} (h : MI.opcode = .ADD dest src src2) :
    Step MI s (s.setReg dest (s.regs src + s.regs src2))
  | sub {dest src src2 : ℕ} (h : MI.opcode = .SUB dest src src2) :
    Step MI s (s.setReg dest (s.regs src - s.regs src2))
  | lw {dest base : ℕ} {offset : MachineOperand} (h : MI.opcode = .LW dest base offset) :
    Step MI s
      (s.setReg dest (wordAt s.mem (s.regs base + lowerImmediate L MI.function offset)))
  | store {base : ℕ} {offset : MachineOperand} {bytes : List (BitVec 8)}
    (h : storedBytes s MI.opcode = some (base, offset, bytes)) :
    Step MI s (s.store (s.regs base + lowerImmediate L MI.function offset) bytes)
  | call (h : MI.opcode = .PseudoCALL) (returnAddress : Word) :
    Step MI s (s.setReg 1 returnAddress)
  | other (h : MI.opcode.isUninterpreted) {s' : State}
    (hregs : ∀ r, .gpr r ∉ MI.defs → s'.regs r = s.regs r)
    (hmem : MI.opcode.mayStore = false → s'.mem = s.mem) : Step MI s s'

end RISCV
end Llvmta
