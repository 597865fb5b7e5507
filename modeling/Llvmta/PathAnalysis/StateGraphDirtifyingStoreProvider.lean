import Llvmta.PathAnalysis.PersistenceEdges

/-!
# Constraints for persistent dirtifying stores

The weight of an edge are the stores on it that turn a line dirty. In each scope those to
a line are at most as many as the entries of the scope, and those to an array at most as
many as the entries times its lines. The scopes are entered on the edges from a state
outside to the first state of their entry block.
-/

namespace Llvmta

/-- The entry blocks of the persistence scopes and the blocks they consist of. -/
structure PersistenceScopeInfo where
  getAllPersistenceScopes : List PersistenceScope
  getEntryBasicBlocks : PersistenceScope → List MachineBasicBlock
  containsBasicBlock : PersistenceScope → MachineBasicBlock → Bool
  scopes_nodup : getAllPersistenceScopes.Nodup

/-- The weights are a multimap from addresses to scopes. -/
structure StateGraphDirtifyingStoreProvider where
  stgr : StateGraph
  edge2weight : GraphEdge → Option (List Annotation)
  staticAddresses : StaticAddresses
  scopeInfo : PersistenceScopeInfo
  controlFlow : ControlFlow
  Dlinesize : Word

namespace StateGraphDirtifyingStoreProvider

variable (provider : StateGraphDirtifyingStoreProvider)

def collectEdge (maps : PersistenceMaps) (edge : GraphEdge) : Except Fault PersistenceMaps :=
  match provider.edge2weight edge with
  | none => .ok maps
  | some weight => weight.foldlM (PersistenceMaps.addAnnotation edge) maps

def getPerScopePersistenceEdges :
    Except Fault (OrderedMap PersistenceScope PersistenceBlocks) := do
  let maps ← (innerEdges provider.stgr.getGraph).foldlM provider.collectEdge .empty
  mergeArrays provider.staticAddresses provider.Dlinesize maps

/-- An enter edge is subtracted for each line. -/
def subtractEnterEdge (edge : GraphEdge) :
    PersistenceBlocks → Except Fault PersistenceBlocks
  | [] => .ok []
  | (addr, edges) :: blocks => do
    let width ← lineWidth provider.staticAddresses provider.Dlinesize addr
    let rest ← subtractEnterEdge edge blocks
    .ok ((addr, edges ++ [(.getEdgeVar .timesTaken edge, -1 * width)]) :: rest)

def visitPredecessor (states : PredecessorStates) (inState : ℕ) (blocks : PersistenceBlocks)
    (predState : ℕ) : Except Fault PersistenceBlocks :=
  if predState ∈ states.outStatesOutsideScope then
    provider.subtractEnterEdge (predState, inState) blocks
  else do
    assertThat (decide (predState ∈ states.outStatesWithinScope))
      "Predecessor state not in in pred basic block"
    .ok blocks

def visitInState (states : PredecessorStates) (blocks : PersistenceBlocks) (inState : ℕ) :
    Except Fault PersistenceBlocks :=
  (provider.stgr.getGraph.getPredecessors inState).foldlM
    (provider.visitPredecessor states inState) blocks

/-- All edges that enter a scope are subtracted, unless its entry block is not reachable. -/
def subtractEnterEdges (persScope : PersistenceScope) (blocks : PersistenceBlocks) :
    Except Fault PersistenceBlocks :=
  match provider.scopeInfo.getEntryBasicBlocks persScope with
  | [entryBB] =>
    if provider.stgr.getInStates entryBB = [] then .ok blocks
    else do
      let states ← predecessorStates provider.controlFlow provider.stgr
        (provider.scopeInfo.containsBasicBlock persScope) entryBB
      (provider.stgr.getInStates entryBB).foldlM (provider.visitInState states) blocks
  | _ => .error (.assertion "For the moment a scope should have one entry block")

def visitScope (scope2addr2edges : OrderedMap PersistenceScope PersistenceBlocks)
    (persScope : PersistenceScope) : Except Fault (OrderedMap PersistenceScope PersistenceBlocks) := do
  let blocks ← provider.subtractEnterEdges persScope ((scope2addr2edges.find? persScope).getD [])
  .ok (scope2addr2edges.insert persScope blocks)

def getPersistentDFSConstraints : Except Fault (List GraphConstraint) := do
  let collected ← provider.getPerScopePersistenceEdges
  let scope2addr2edges ← provider.scopeInfo.getAllPersistenceScopes.foldlM provider.visitScope
    collected
  .ok (persistenceConstraints scope2addr2edges)

end StateGraphDirtifyingStoreProvider

end Llvmta
