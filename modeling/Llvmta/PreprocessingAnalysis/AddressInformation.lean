import Llvmta.Memory.CacheTraits
import Llvmta.PreprocessingAnalysis.ConstantValueDomain

/-!
# The addresses of data accesses

The value analysis of a task gives the addresses of each data access in each context.
`getvalueaddr` lists addresses for an instruction: one for an access within one line of
the data cache, and some at the distance of a line for an access to an array. For any
other access it lists none.
-/

namespace Llvmta

/-- `addr & ~(size - 1)` -/
def alignTo (size addr : Word) : Word := addr &&& ~~~(size - 1)

/-- A power of two. -/
def IsLineSize (size : Word) : Prop := ∃ k < 32, size = BitVec.ofNat 32 (2 ^ k)

section Lines

variable {size a b : Word}

theorem IsLineSize.toNat (h : IsLineSize size) : ∃ k < 32, size.toNat = 2 ^ k := by
  obtain ⟨k, hk, rfl⟩ := h
  have hlt : 2 ^ k < 2 ^ 32 := Nat.pow_lt_pow_right (by decide) hk
  exact ⟨k, hk, by rw [BitVec.toNat_ofNat, Nat.mod_eq_of_lt hlt]⟩

theorem toNat_alignTo (h : IsLineSize size) :
    (alignTo size a).toNat = a.toNat / size.toNat * size.toNat := by
  obtain ⟨k, hk, hsize⟩ := h.toNat
  have heq := getCachelineAddress_eq ⟨2 ^ k, 0, 0, false, false, 0, 0⟩ hk rfl a.isLt
  unfold getCachelineAddress at heq
  dsimp only at heq
  rw [BitVec.ofNat_toNat, BitVec.setWidth_eq, ← hsize, BitVec.ofNat_toNat, BitVec.setWidth_eq]
    at heq
  exact heq

theorem alignTo_eq_iff (h : IsLineSize size) :
    alignTo size a = alignTo size b ↔ a.toNat / size.toNat = b.toNat / size.toNat := by
  obtain ⟨k, _, hsize⟩ := h.toNat
  have hpos : 0 < size.toNat := hsize ▸ Nat.two_pow_pos k
  rw [← BitVec.toNat_inj, toNat_alignTo h, toNat_alignTo h]
  exact Nat.mul_left_inj hpos.ne'

end Lines

/-- The results of the value analysis of a task. -/
structure AddressInformation (Instr : Type) where
  /-- the contexts of an instruction, numbered in the order of `ctxcomp` -/
  getAddressContexts : Instr → List ℕ
  getDataAccessAddress : Instr → (ctx pos : ℕ) → Except Fault DataAddress

structure MachineFunction (Instr : Type) where
  name : String
  basicBlocks : List (List Instr)

def MachineFunction.instructions {Instr : Type} (F : MachineFunction Instr) : List Instr :=
  F.basicBlocks.flatten

/-- The program with what the target and the static addresses tell about it. -/
structure MachineProgram (Instr : Type) where
  machineFunctions : List (MachineFunction Instr)
  mayLoad : Instr → Bool
  mayStore : Instr → Bool
  getNumOfDataAccesses : Instr → Except Fault ℕ
  /-- the names of the functions that an instruction calls -/
  callTargets : Instr → List String
  ins2addr : Instr → Option Word
  staticAddresses : StaticAddresses

/-- The results of a function on all elements of a list, one after the other. -/
def collectAll {α β : Type*} (f : α → Except Fault (List β)) : List α → Except Fault (List β)
  | [] => .ok []
  | a :: as => do
    let x ← f a
    let rest ← collectAll f as
    .ok (x ++ rest)

/-- The walk through an array, in 32 bits: it need not end. -/
def arrayAddresses (Dlinesize upper : Word) : (fuel : ℕ) → (temp : Word) → Except Fault (List Word)
  | 0, _ => .error .divergence
  | fuel + 1, temp =>
    if temp < upper then do
      let rest ← arrayAddresses Dlinesize upper fuel (temp + Dlinesize)
      .ok (temp :: rest)
    else .ok []

/-- The addresses that are listed for one access. -/
def accessAddresses (P : StaticAddresses) (Dlinesize : Word) (addr : DataAddress) :
    Except Fault (List Word) := do
  let (lower, upper) ← addr.getAsInterval P
  if addr.precise?.isSome || alignTo Dlinesize lower == alignTo Dlinesize upper then .ok [lower]
  else
    match addr with
    | .array _ => arrayAddresses Dlinesize upper (2 ^ 32) lower
    | .interval _ _ => .ok []

variable {Instr : Type}

def getvalueaddr (P : MachineProgram Instr) (Dlinesize : Word) (A : AddressInformation Instr)
    (currMI : Instr) : Except Fault (List Word) :=
  if P.mayLoad currMI || P.mayStore currMI then
    collectAll (fun ctx => do
      let num ← P.getNumOfDataAccesses currMI
      collectAll (fun o => do
        let addr ← A.getDataAccessAddress currMI ctx o
        accessAddresses P.staticAddresses Dlinesize addr) (List.range num))
      (A.getAddressContexts currMI)
  else .ok []

end Llvmta
