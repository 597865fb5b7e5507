import Llvmta.Util.Graph

/-!
# Contexts

A context tells apart executions of a block by a list of tokens, the youngest of which is
the last: the iterations of the loops around the block, which are told apart up to a
number of peeled ones, and the calls of the functions around it.
-/

namespace Llvmta

/-- Basic blocks, functions and call sites are told apart by numbers. -/
abbrev MachineBasicBlock := ℕ

abbrev MachineFunctionId := ℕ

abbrev CallSite := ℕ

abbrev MBBedge := MachineBasicBlock × MachineBasicBlock

structure MachineLoop where
  getHeader : MachineBasicBlock
  getBlocks : List MachineBasicBlock
  deriving DecidableEq, Repr

def MachineLoop.contains (loop : MachineLoop) (bb : MachineBasicBlock) : Bool :=
  decide (bb ∈ loop.getBlocks)

/-- The tokens of a loop hold its back edges, by which they are compared: they determine
the loop. -/
inductive PartitionToken where
  | none
  | ifOutcome (branchInstrID : String) (assumeTaken : Bool)
  | loopPeel (loop : MachineLoop) (backedges : List MBBedge) (backedgeTakenCount : ℕ)
  | loopIter (loop : MachineLoop) (backedges : List MBBedge) (backedgeLeastTakenCount : ℕ)
  | callSite (callInstr : CallSite)
  | funCallee (function : MachineFunctionId)
  deriving DecidableEq, Repr

/-- The tokens that belong to the current call of a function. -/
def PartitionToken.isLocal : PartitionToken → Bool
  | none => true
  | ifOutcome _ _ => true
  | loopPeel _ _ _ => true
  | loopIter _ _ _ => true
  | callSite _ => false
  | funCallee _ => false

structure Context where
  getTokenList : List PartitionToken
  deriving DecidableEq, Repr

/-- The context at the start of the function. -/
def Context.cleanToFunCall (context : Context) : Context :=
  ⟨(context.getTokenList.reverse.dropWhile PartitionToken.isLocal).reverse⟩

end Llvmta
