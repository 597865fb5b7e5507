import Llvmta.PreprocessingAnalysis.ConstantValueDomain

/-!
# Concrete machine states

Register contents and memory, without the control flow, of a program that is
linked to the addresses the static address provider assumes; and what it means
that the constants of a domain element describe a state.
-/

namespace Llvmta

open ByteMemory

/-- The addresses the linker chose. They are those the provider knows. -/
structure LinkedProgram extends StaticAddresses where
  address : GlobalValue → Word
  constPoolEntry : ℕ → ℕ → Word
  address_eq : ∀ {glvar a}, glvar2addr glvar = some a → address (.globalVariable glvar) = a
  constPoolEntry_eq : ∀ {function index a}, cpe2addr function index = some a →
    constPoolEntry function index = a

/-- The address an operand refers to, with its offset, or its immediate. -/
def LinkedProgram.operandValue (L : LinkedProgram) (function : ℕ) : MachineOperand → Word
  | .imm value => BitVec.ofInt 32 value
  | .cpi index offset => L.constPoolEntry function index + BitVec.ofInt 32 offset
  | .global value offset => L.address value + BitVec.ofInt 32 offset
  | .other value => value

structure MachineState where
  regs : ℕ → Word
  /-- floating-point registers -/
  fregs : ℕ → BitVec 64
  mem : Word → BitVec 8

/-- All constants of the domain element are those of the state. -/
structure ConstantValueDomain.Describes (σ : ConstantValueDomain) (s : MachineState) : Prop where
  reachable : σ.bot = false
  regs : σ.reg2const.Forall fun r v => s.regs r = v
  mem : σ.addr2const.Forall fun a v => wordAt s.mem a = v

end Llvmta
