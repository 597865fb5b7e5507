import Llvmta.Library.CheckedFold
import Llvmta.Library.Worklist
import Llvmta.PathAnalysis.GetEdges
import Llvmta.PathAnalysis.StateGraph
import Llvmta.Util.Util

/-!
# Flow constraints

The paths through the state graph that are program runs, or parts of program runs in the
general mode, are described by linear constraints: vertices are left as often as they are
reached, loops iterate within their bounds, and calls return. In the general mode a path
may start or end within a loop or call, which the constraints make up for on its inner
edges. Loop bounds and the number of peeled iterations are unsigned numbers of 32 bits.
-/

namespace Llvmta

open Checked

/-- The loops and the bounds of their back edges, in each context of their functions. -/
structure LoopBoundInfo where
  getAllLoops : List MachineLoop
  getUpperLoopBound : MachineLoop → Context → Option (BitVec 32)
  getLowerLoopBound : MachineLoop → Context → Option (BitVec 32)

structure FlowConstraintProvider where
  graph : StateGraph
  controlFlow : ControlFlow
  loopBoundInfo : LoopBoundInfo
  /-- the option `LoopPeel` -/
  loopPeel : BitVec 32
  programRunMode : Bool
  allowSeveralRuns : Bool
  loopGetInnerEdgesMethod : GetEdgesMethod
  callSiteGetInnerEdgesMethod : GetEdgesMethod

/-- The edges with a coefficient for how often each is taken. -/
def timesTakenTerms (coeff : ℤ) (edges : List GraphEdge) : VarCoeffVector :=
  edges.map fun edge => (.getEdgeVar .timesTaken edge, coeff)

def isStartTerms (coeff : ℤ) (edges : List GraphEdge) : VarCoeffVector :=
  edges.map fun edge => (.getEdgeVar .isStart edge, coeff)

def isEndTerms (coeff : ℤ) (edges : List GraphEdge) : VarCoeffVector :=
  edges.map fun edge => (.getEdgeVar .isEnd edge, coeff)

def edgesTo (G : Graph) (vertex : ℕ) : List GraphEdge :=
  (G.getPredecessors vertex).map fun pred => (pred, vertex)

def edgesFrom (G : Graph) (vertex : ℕ) : List GraphEdge :=
  (G.getSuccessors vertex).map fun succ => (vertex, succ)

/-- The iteration of a state in a loop, from the youngest token on: the tokens of other loops
are skipped. -/
def iterationOf (loopPeel : BitVec 32) (loop : MachineLoop) :
    List PartitionToken → Except Fault ℕ
  | [] => .error (.assertion
      "None of the topmost tokens of a context in a loop did match the expected loop.")
  | .loopPeel peeled _ backedgeTakenCount :: tokens =>
    if peeled.getBlocks = loop.getBlocks then do
      assertThat (decide (backedgeTakenCount < loopPeel.toNat))
        "Unexpected iteration count in context"
      .ok backedgeTakenCount
    else iterationOf loopPeel loop tokens
  | .loopIter iterated _ backedgeLeastTakenCount :: tokens =>
    if iterated.getBlocks = loop.getBlocks then do
      assertThat (decide (backedgeLeastTakenCount = loopPeel.toNat))
        "Unexpected iteration count in context"
      .ok backedgeLeastTakenCount
    else iterationOf loopPeel loop tokens
  | _ :: _ => .error (.assertion "Topmost tokens in context within loop were not loop-related")

/-- What is collected from the edges into a loop in one context. -/
structure LoopEdges where
  loopVariables : VarCoeffVector
  loopInEdges : List GraphEdge
  iter2backedges : List (List GraphEdge)
  skipConstraints : Bool

/-- What is collected from the contexts of a loop one after the other. -/
structure LoopContexts where
  caches : EdgeCaches
  loopInEdges : List GraphEdge
  loopConstraints : List GraphConstraint

namespace FlowConstraintProvider

variable (provider : FlowConstraintProvider)

/-- Program run mode is not simulated by the general mode. -/
def isGeneralMode : Bool := !provider.programRunMode

section Flow

/-- An edge is taken if the path starts or ends with it. -/
def borderConstraints (edge : GraphEdge) : List GraphConstraint :=
  [⟨timesTakenTerms 1 [edge] ++ isEndTerms (-1) [edge], .greaterEqual, 0⟩,
    ⟨timesTakenTerms 1 [edge] ++ isStartTerms (-1) [edge], .greaterEqual, 0⟩]

/-- The terms stand edge by edge in the source; here those of a kind are put together. -/
def flowConstraint (vertex : ℕ) : GraphConstraint :=
  let inEdges := edgesTo provider.graph.getGraph vertex
  let outEdges := edgesFrom provider.graph.getGraph vertex
  let timesTaken := timesTakenTerms (-1) inEdges ++ timesTakenTerms 1 outEdges
  let border :=
    if provider.isGeneralMode then isEndTerms 1 inEdges ++ isStartTerms (-1) outEdges else []
  ⟨timesTaken ++ border, .equal, 0⟩

def buildInFlowEqualsOutFlowConstraints : List GraphConstraint :=
  provider.graph.getGraph.getVertices.flatMap fun vertex =>
    (if provider.isGeneralMode then
      (edgesTo provider.graph.getGraph vertex).flatMap borderConstraints
    else []) ++ [provider.flowConstraint vertex]

end Flow

section Loops

def getLoopBound (upper : Bool) : MachineLoop → Context → Option (BitVec 32) :=
  if upper then provider.loopBoundInfo.getUpperLoopBound
  else provider.loopBoundInfo.getLowerLoopBound

def cleanedContextOf (stateId : ℕ) : Context :=
  match provider.graph.getContextOfState stateId with
  | none => ⟨[]⟩
  | some context => context.cleanToFunCall

/-- The states of each context; the order of the contexts is that of an unordered map. -/
def ctxStateMap (stateIds : List ℕ) : List (Context × List ℕ) :=
  (stateIds.map provider.cleanedContextOf).dedup.map fun ctx =>
    (ctx, stateIds.filter fun stateId => provider.cleanedContextOf stateId = ctx)

/-- The back edges are sorted by the iterations that they end. -/
def visitBackedge (loop : MachineLoop) (found : LoopEdges) (edge : GraphEdge) :
    Except Fault LoopEdges :=
  match provider.graph.getContextOfState edge.1 with
  | none => .ok { found with skipConstraints := true }
  | some predCtx => do
    let iteration ← iterationOf provider.loopPeel loop predCtx.getTokenList.reverse
    let backedges ← read found.iter2backedges iteration
    let iter2backedges ← write found.iter2backedges iteration (insertEdge backedges edge)
    .ok { found with iter2backedges := iter2backedges }

def visitEdge (upper : Bool) (loop : MachineLoop) (states : PredecessorStates)
    (loopBound : BitVec 32) (found : LoopEdges) (edge : GraphEdge) : Except Fault LoopEdges :=
  if edge.1 ∈ states.outStatesOutsideScope then
    let loopVariables := found.loopVariables ++ timesTakenTerms loopBound.toNat [edge]
    let loopInEdges :=
      if provider.isGeneralMode && provider.loopGetInnerEdgesMethod.usesBorder then
        insertEdge found.loopInEdges edge
      else found.loopInEdges
    .ok { found with loopVariables := loopVariables, loopInEdges := loopInEdges }
  else do
    assertThat (decide (edge.1 ∈ states.outStatesWithinScope))
      "Predecessor state not in in pred basic block"
    let found := { found with loopVariables := found.loopVariables ++ timesTakenTerms (-1) [edge] }
    if !provider.isGeneralMode && upper && decide (0 < provider.loopPeel.toNat) then
      provider.visitBackedge loop found edge
    else .ok found

/-- The edges from the out states of a block to in states of blocks outside of the loop. -/
def blockOutEdges (loop : MachineLoop) (loopBB : MachineBasicBlock) :
    Except Fault (List GraphEdge) :=
  let successors := (provider.controlFlow.getNonEmptySuccessorBasicBlocks loopBB).filter
    fun succBB => !loop.contains succBB
  successors.foldlM (fun loopOutEdges succBB => do
    let inStates := provider.graph.getInStates succBB
    assertThat (decide (0 < inStates.length)) "Non empty BB should have in states"
    let edges := (provider.graph.getOutStates loopBB).flatMap fun outState =>
      (inStates.filter fun inState =>
        decide (provider.graph.getGraph.hasEdge (outState, inState))).map fun inState =>
          (outState, inState)
    .ok (edges.foldl insertEdge loopOutEdges)) []

def loopOutEdges (loop : MachineLoop) : Except Fault (List GraphEdge) :=
  loop.getBlocks.foldlM (fun loopOutEdges loopBB => do
    let edges ← provider.blockOutEdges loop loopBB
    .ok (edges.foldl insertEdge loopOutEdges)) []

/-- The functions that the call sites of a function are for. -/
def neighbours (function : MachineFunctionId) : List MachineFunctionId :=
  (provider.controlFlow.getCallSites function).flatMap provider.controlFlow.getPotentialCallees

def isFunctionPotentiallyReachableFrom (target : MachineFunctionId)
    (basicBlocks : List MachineBasicBlock) : Bool :=
  let reachableFunctions := (basicBlocks.flatMap provider.controlFlow.getCallSitesInMBB).flatMap
    provider.controlFlow.getPotentialCallees
  let functions := (provider.controlFlow.machineBasicBlocks.map provider.controlFlow.getParent).dedup
  decide (target ∈ reachableFunctions) ||
    (Worklist.explore provider.neighbours (functions.length + reachableFunctions.length)
      reachableFunctions.dedup []).any fun function => decide (target ∈ provider.neighbours function)

def loopConstraint (upper : Bool) (loopVariables : VarCoeffVector) : GraphConstraint :=
  ⟨loopVariables, if upper then .greaterEqual else .lessEqual, 0⟩

/-- A path that starts inside the loop (upper bound) or ends there (lower bound). -/
def correctionTerms (upper : Bool) (loopBound : BitVec 32) (edgesInsideLoop : List GraphEdge) :
    VarCoeffVector :=
  if upper then isStartTerms loopBound.toNat edgesInsideLoop
  else isEndTerms (-loopBound.toNat) edgesInsideLoop

/-- An iteration is ended at most as often as the one before; those after the last peeled one
as often as the loop bound still allows. -/
def extendedLoopConstraint (loopBound : BitVec 32) (i : ℕ) (backedges next : List GraphEdge) :
    GraphConstraint :=
  let coeff : ℤ :=
    if i = provider.loopPeel.toNat - 1 then (loopBound - provider.loopPeel).toNat else 1
  ⟨timesTakenTerms coeff backedges ++ timesTakenTerms (-1) next, .greaterEqual, 0⟩

def addExtendedLoopConstraint (loopBound : BitVec 32) (iter2backedges : List (List GraphEdge))
    (loopConstraints : List GraphConstraint) (i : ℕ) : Except Fault (List GraphConstraint) :=
  if loopBound.toNat ≤ i then .ok loopConstraints
  else do
    let backedges ← read iter2backedges i
    let next ← read iter2backedges (i + 1)
    .ok (loopConstraints ++ [provider.extendedLoopConstraint loopBound i backedges next])

/-- In program run mode the constraint of the loop and, for an upper bound, of its peeled
iterations. -/
def programRunConstraints (upper : Bool) (loopBound : BitVec 32) (found : LoopEdges)
    (loopConstraints : List GraphConstraint) : Except Fault (List GraphConstraint) :=
  let loopConstraints := loopConstraints ++ [loopConstraint upper found.loopVariables]
  if upper && decide (0 < provider.loopPeel.toNat) && !found.skipConstraints then
    (List.range provider.loopPeel.toNat).foldlM
      (provider.addExtendedLoopConstraint loopBound found.iter2backedges) loopConstraints
  else .ok loopConstraints

/-- In the general mode there is no constraint for a loop that may call its own function. -/
def generalConstraints (upper : Bool) (loop : MachineLoop) (loopBound : BitVec 32)
    (found : LoopEdges) (contexts : LoopContexts) : Except Fault LoopContexts := do
  let loopOutEdges ←
    if provider.loopGetInnerEdgesMethod.usesBorder then provider.loopOutEdges loop else .ok []
  let (edgesInsideLoop, caches) ← provider.loopGetInnerEdgesMethod.getInnerEdges
    provider.graph.getGraph contexts.caches found.loopInEdges loopOutEdges
    (.loopHeader loop.getHeader)
  assertThat (decide (0 < loop.getBlocks.length)) "There should be no loop without basic blocks!"
  if provider.isFunctionPotentiallyReachableFrom
      (provider.controlFlow.getParent (loop.getBlocks.headD loop.getHeader)) loop.getBlocks then
    .ok { contexts with caches := caches, loopInEdges := found.loopInEdges }
  else
    let loopVariables := found.loopVariables ++ correctionTerms upper loopBound edgesInsideLoop
    .ok ⟨caches, found.loopInEdges, contexts.loopConstraints ++ [loopConstraint upper loopVariables]⟩

def visitContext (upper : Bool) (loop : MachineLoop) (states : PredecessorStates)
    (contexts : LoopContexts) (ctxMapElement : Context × List ℕ) : Except Fault LoopContexts :=
  match provider.getLoopBound upper loop ctxMapElement.1 with
  | none => .ok contexts
  | some loopBound => do
    let iterations := List.replicate (provider.loopPeel + 1).toNat []
    let found ← (ctxMapElement.2.flatMap (edgesTo provider.graph.getGraph)).foldlM
      (provider.visitEdge upper loop states loopBound) ⟨[], contexts.loopInEdges, iterations, false⟩
    if provider.isGeneralMode then provider.generalConstraints upper loop loopBound found contexts
    else do
      let loopConstraints ← provider.programRunConstraints upper loopBound found
        contexts.loopConstraints
      .ok { contexts with loopConstraints := loopConstraints }

/-- A loop that is not reachable has no constraints. -/
def visitLoop (upper : Bool) (built : EdgeCaches × List GraphConstraint) (loop : MachineLoop) :
    Except Fault (EdgeCaches × List GraphConstraint) :=
  if provider.graph.getInStates loop.getHeader = [] then .ok built
  else do
    let states ← predecessorStates provider.controlFlow provider.graph loop.contains loop.getHeader
    let contexts ← (provider.ctxStateMap (provider.graph.getInStates loop.getHeader)).foldlM
      (provider.visitContext upper loop states) ⟨built.1, [], built.2⟩
    .ok (contexts.caches, contexts.loopConstraints)

def buildLoopConstraints (upper : Bool) (caches : EdgeCaches) :
    Except Fault (EdgeCaches × List GraphConstraint) :=
  provider.loopBoundInfo.getAllLoops.foldlM (provider.visitLoop upper) (caches, [])

end Loops

section Calls

def callEdges (callsite : CallSite) : List GraphEdge :=
  (provider.graph.getCallStates callsite).flatMap (edgesFrom provider.graph.getGraph)

def returnEdges (callsite : CallSite) : List GraphEdge :=
  (provider.graph.getReturnStates callsite).flatMap (edgesTo provider.graph.getGraph)

def callsMinusReturns (callsite : CallSite) : VarCoeffVector :=
  timesTakenTerms 1 (provider.callEdges callsite) ++
    timesTakenTerms (-1) (provider.returnEdges callsite)

/-- Whether the calls of a call site can be nested. -/
def isRecursive (callsite : CallSite) (startFunction : MachineFunctionId) : Bool :=
  let callees := provider.controlFlow.getPotentialCallees callsite
  decide (startFunction ∈ callees) ||
    provider.isFunctionPotentiallyReachableFrom startFunction
      (callees.flatMap fun callee => provider.controlFlow.machineBasicBlocks.filter
        fun bb => provider.controlFlow.getParent bb = callee)

/-- In the general mode a path may start or end inside the call. -/
def visitCallSite (bb : MachineBasicBlock) (built : EdgeCaches × List GraphConstraint)
    (callsite : CallSite) : Except Fault (EdgeCaches × List GraphConstraint) :=
  let callsMinusReturns := provider.callsMinusReturns callsite
  if !provider.isGeneralMode then .ok (built.1, built.2 ++ [⟨callsMinusReturns, .equal, 0⟩])
  else if provider.isRecursive callsite (provider.controlFlow.getParent bb) then .ok built
  else do
    let usesBorder := provider.callSiteGetInnerEdgesMethod.usesBorder
    let callEdges := if usesBorder then provider.callEdges callsite else []
    let returnEdges := if usesBorder then provider.returnEdges callsite else []
    let (edgesInsideCallSite, caches) ← provider.callSiteGetInnerEdgesMethod.getInnerEdges
      provider.graph.getGraph built.1 callEdges returnEdges (.callSite callsite)
    .ok (caches, built.2 ++
      [⟨callsMinusReturns ++ isEndTerms (-1) edgesInsideCallSite, .lessEqual, 0⟩,
        ⟨callsMinusReturns ++ isStartTerms 1 edgesInsideCallSite, .greaterEqual, 0⟩])

def visitBlock (built : EdgeCaches × List GraphConstraint) (bb : MachineBasicBlock) :
    Except Fault (EdgeCaches × List GraphConstraint) :=
  (provider.controlFlow.getCallSitesInMBB bb).foldlM (provider.visitCallSite bb) built

def buildCallReturnConstraints (caches : EdgeCaches) :
    Except Fault (EdgeCaches × List GraphConstraint) :=
  provider.controlFlow.machineBasicBlocks.foldlM provider.visitBlock (caches, [])

end Calls

section Start

/-- One run starts with one edge from the special vertex and does not idle. -/
def runStartConstraints : List GraphConstraint :=
  let startEdges := (edgesFrom provider.graph.getGraph 0).filter fun edge => decide (edge.2 ≠ 0)
  [⟨timesTakenTerms 1 startEdges, .equal, 1⟩, ⟨timesTakenTerms 1 [(0, 0)], .equal, 0⟩]

/-- A path has at most one start edge and at most one end edge, and both or none. -/
def pathConstraints : List GraphConstraint :=
  let edges := provider.graph.getGraph.edges
  let startVars := isStartTerms 1 edges
  let endVars := isEndTerms (-1) edges
  [⟨startVars, .lessEqual, 1⟩, ⟨endVars, .greaterEqual, -1⟩, ⟨startVars ++ endVars, .equal, 0⟩]

def buildStartConstraint : List GraphConstraint :=
  (if provider.programRunMode && !provider.allowSeveralRuns then provider.runStartConstraints
  else []) ++
    if provider.isGeneralMode then provider.pathConstraints else []

end Start

/-- The constraints with upper bounds of the loops. -/
def buildUpperConstraints : Except Fault (List GraphConstraint) := do
  let (caches, upperLoopConstraints) ← provider.buildLoopConstraints true .empty
  let (_, callReturnConstraints) ← provider.buildCallReturnConstraints caches
  .ok (provider.buildInFlowEqualsOutFlowConstraints ++ upperLoopConstraints ++
    callReturnConstraints ++ provider.buildStartConstraint)

def buildConstraints : Except Fault (List GraphConstraint) := do
  let (caches, upperLoopConstraints) ← provider.buildLoopConstraints true .empty
  let (caches, lowerLoopConstraints) ← provider.buildLoopConstraints false caches
  let (_, callReturnConstraints) ← provider.buildCallReturnConstraints caches
  .ok (provider.buildInFlowEqualsOutFlowConstraints ++ upperLoopConstraints ++
    lowerLoopConstraints ++ callReturnConstraints ++ provider.buildStartConstraint)

section Recursion

variable {provider} {collector : MachineFunctionCollector}

/-- The calls of the control flow are those of the call graph. -/
structure UsesCallGraph (provider : FlowConstraintProvider) (graph : CallGraph) : Prop where
  callSitesInMBB : provider.controlFlow.getCallSitesInMBB = graph.getCallSitesInMBB
  potentialCallees : provider.controlFlow.getPotentialCallees = graph.getPotentialCallees
  callSites : provider.controlFlow.getCallSites = graph.getCallSites

theorem UsesCallGraph.eq_of_mem_neighbours
    (h : provider.UsesCallGraph (CallGraph.recomputeCallGraph collector))
    {f g : MachineFunctionId} (hmem : g ∈ provider.neighbours f) : g = f := by
  unfold neighbours at hmem
  rw [h.callSites, h.potentialCallees] at hmem
  exact eq_of_mem_callees hmem

/-- The test for recursion is the search through the call graph. -/
theorem UsesCallGraph.isFunctionPotentiallyReachableFrom_eq
    (h : provider.UsesCallGraph (CallGraph.recomputeCallGraph collector))
    (target : MachineFunctionId) (basicBlocks : List MachineBasicBlock) {fuel : ℕ}
    (hfuel : collector.getAllMachineFunctions.length ≤ fuel) :
    Llvmta.isFunctionPotentiallyReachableFrom (CallGraph.recomputeCallGraph collector) target fuel
      basicBlocks = .ok (provider.isFunctionPotentiallyReachableFrom target basicBlocks) := by
  obtain ⟨result, heq, hresult⟩ :=
    Llvmta.isFunctionPotentiallyReachableFrom_eq target basicBlocks hfuel
  rw [heq]
  congr 1
  rw [Bool.eq_iff_iff, hresult, ← mem_calleesOf_iff]
  unfold FlowConstraintProvider.isFunctionPotentiallyReachableFrom
  rw [← h.callSitesInMBB, ← h.potentialCallees]
  simp only [Bool.or_eq_true, decide_eq_true_eq, List.any_eq_true]
  constructor
  · exact .inl
  · rintro (hdirect | ⟨f, hf, htarget⟩)
    · exact hdirect
    · rw [h.eq_of_mem_neighbours htarget]
      rcases Worklist.mem_of_mem_explore (fun _ _ => h.eq_of_mem_neighbours) hf with hf | hf
      · exact List.mem_dedup.mp hf
      · cases hf

end Recursion

end FlowConstraintProvider

end Llvmta
