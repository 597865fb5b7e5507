import Llvmta.Library.CheckedVector
import Llvmta.Memory.CacheTraits
import Llvmta.PartitionUtil.Context

/-!
# Directives

A directive creates a token on top of a context or merges the contexts that differ in
their topmost token. Taking a back edge advances the topmost token if it belongs to the
loop. A call reduces the context.
-/

namespace Llvmta

open Checked

/-- The options that concern contexts. A negative number of tokens is unlimited. -/
structure ContextOptions where
  loopPeel : ℕ
  numberLoopTokens : ℤ
  numberCalleeTokens : ℤ
  numberCallsiteTokens : ℤ
  deriving DecidableEq, Repr

inductive DirectiveType where
  | create
  | merge
  deriving DecidableEq, Repr

structure Directive where
  getType : DirectiveType
  getPartitionTokens : List PartitionToken
  deriving DecidableEq, Repr

/-- The tokens of a loop: one for each peeled iteration, and one for the later ones. -/
def loopTokens (loopPeel : ℕ) (loop : MachineLoop) (backedges : List MBBedge) :
    List PartitionToken :=
  (List.range loopPeel).map (.loopPeel loop backedges) ++ [.loopIter loop backedges loopPeel]

namespace PartitionToken

/-- The token of a loop for an iteration. -/
def isIteration (iteration : ℕ) : PartitionToken → Bool
  | loopPeel _ _ backedgeTakenCount => backedgeTakenCount == iteration
  | loopIter _ _ backedgeLeastTakenCount => backedgeLeastTakenCount == iteration
  | _ => false

def isIfOrNone : PartitionToken → Bool
  | none => true
  | ifOutcome _ _ => true
  | _ => false

def isLoop : PartitionToken → Bool
  | loopPeel _ _ _ => true
  | loopIter _ _ _ => true
  | _ => false

def isFunCallee : PartitionToken → Bool
  | funCallee _ => true
  | _ => false

def isCallSite : PartitionToken → Bool
  | callSite _ => true
  | _ => false

end PartitionToken

namespace Context

/-- The first token that a directive creates on a context: the one for the first iteration
of a loop, or the token of a call. -/
def createdToken : List PartitionToken → Except Fault (Option PartitionToken)
  | [] => .ok none
  | token :: tokens =>
    match token with
    | .loopPeel _ _ backedgeTakenCount =>
      if backedgeTakenCount = 0 then .ok (some token) else createdToken tokens
    | .loopIter _ _ backedgeLeastTakenCount =>
      if backedgeLeastTakenCount = 0 then .ok (some token) else createdToken tokens
    | .callSite _ => .ok (some token)
    | .funCallee _ => .ok (some token)
    | .ifOutcome _ _ => .error (.assertion "Unsupported directive found (IF or NONE)")
    | .none => .error (.assertion "Unsupported directive found (IF or NONE)")

def create (context : Context) (tokens : List PartitionToken) : Except Fault Context :=
  (createdToken tokens).map fun token => ⟨context.getTokenList ++ token.toList⟩

/-- Removes the topmost token if it is one of the labels. -/
def merge (context : Context) (labelsToMerge : List PartitionToken) : Except Fault Context :=
  match context.getTokenList.getLast? with
  | none => .error (.assertion "We found a merge directive for an empty context")
  | some label =>
    .ok (if label ∈ labelsToMerge then ⟨context.getTokenList.dropLast⟩ else context)

def update (context : Context) (direc : Directive) : Except Fault Context :=
  match direc.getType with
  | .create => context.create direc.getPartitionTokens
  | .merge => context.merge direc.getPartitionTokens

/-- Only a topmost token for a peeled iteration changes, if the edge is one of its back
edges: the tokens of its directive contain the one for the next iteration. -/
def transfer (loopPeel : ℕ) (context : Context) (edge : MBBedge) : Except Fault Context :=
  match context.getTokenList.getLast? with
  | some (.loopPeel loop backedges iteration) =>
    if edge ∈ backedges then
      match (loopTokens loopPeel loop backedges).find?
          (PartitionToken.isIteration (iteration + 1)) with
      | some token => .ok ⟨context.getTokenList.dropLast ++ [token]⟩
      | none =>
        .error (.assertion "Could not find the successor context for loop peeling token")
    else .ok context
  | _ => .ok context

/-- The loop of `clearTokensOlderThan`, from the youngest token on. -/
def clearFrom (tok : PartitionToken → Bool) (length : ℕ) :
    (found : ℕ) → List PartitionToken → List PartitionToken
  | _, [] => []
  | found, token :: tokens =>
    let rest := clearFrom tok length (if tok token then found + 1 else found) tokens
    if !tok token || decide (found < length) then token :: rest else rest

def clearTokensOlderThan (context : Context) (tok : PartitionToken → Bool) (length : ℕ) :
    Context :=
  ⟨(clearFrom tok length 0 context.getTokenList.reverse).reverse⟩

/-- Throws away the tokens of a kind that are too old, if their number is limited. -/
def limitTokens (context : Context) (tok : PartitionToken → Bool) (number : ℤ) : Context :=
  if 0 ≤ number then context.clearTokensOlderThan tok number.toNat else context

/-- The part of a limit in the maximal size, an unsigned number. -/
def limitedSize (number : ℤ) : ℕ := if 0 ≤ number then number.toNat else 0

def reduceOnCall (opts : ContextOptions) (context : Context) : Except Fault Context := do
  let context := context.clearTokensOlderThan PartitionToken.isIfOrNone 0
  let context := context.limitTokens PartitionToken.isLoop opts.numberLoopTokens
  let context := context.limitTokens PartitionToken.isFunCallee opts.numberCalleeTokens
  let context := context.limitTokens PartitionToken.isCallSite opts.numberCallsiteTokens
  let maxSize := toUnsigned (limitedSize opts.numberLoopTokens +
    limitedSize opts.numberCalleeTokens + limitedSize opts.numberCallsiteTokens)
  assertThat (decide (opts.numberLoopTokens < 0) || decide (opts.numberCalleeTokens < 0) ||
      decide (opts.numberCallsiteTokens < 0) || decide (context.getTokenList.length ≤ maxSize))
    "Reduced context should be small enough"
  .ok context

end Context

end Llvmta
