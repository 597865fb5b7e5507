import Llvmta.PathAnalysis.PersistenceEdges

/-!
# Constraints for persistent cache misses

The weight of an edge are the scopes that are entered on it and the accesses that miss on
it. In each scope the misses of a line are at most as many as the entries of the scope,
and those of an array at most as many as the entries times its lines.
-/

namespace Llvmta

inductive CacheType where
  | instruction
  | data
  deriving DecidableEq, Repr

/-- The scopes and the misses of an edge; both are sets. -/
structure MissWeight where
  entered : List PersistenceScope
  missed : List Annotation
  entered_nodup : entered.Nodup
  missed_nodup : missed.Nodup

/-- The state graph with the weights of its edges, and what the lines depend on. The edges at
the special vertex are added without a weight. -/
structure StateGraphCacheMissProvider where
  stgr : StateGraph
  edge2weight : GraphEdge → Option MissWeight
  weight_inner : ∀ {edge}, edge2weight edge ≠ none → edge.1 ≠ 0 ∧ edge.2 ≠ 0
  staticAddresses : StaticAddresses
  cacheType : CacheType
  Ilinesize : Word
  Dlinesize : Word

namespace StateGraphCacheMissProvider

variable (provider : StateGraphCacheMissProvider)

def collectEdge (maps : PersistenceMaps) (edge : GraphEdge) : Except Fault PersistenceMaps :=
  match provider.edge2weight edge with
  | none => .ok maps
  | some weight =>
    weight.missed.foldlM (PersistenceMaps.addAnnotation edge)
      (weight.entered.foldl (PersistenceMaps.addEntered edge) maps)

def linesize : Word :=
  match provider.cacheType with
  | .data => provider.Dlinesize
  | .instruction => provider.Ilinesize

/-- The vector of the enter edges is scaled by the width of each line or array in turn. -/
def subtractEnterEdges : VarCoeffVector → PersistenceBlocks → Except Fault PersistenceBlocks
  | _, [] => .ok []
  | varCoeffVec, (addr, edges) :: blocks => do
    let width ← lineWidth provider.staticAddresses provider.linesize addr
    let scaled := scaleVarCoeffVector varCoeffVec width
    let rest ← subtractEnterEdges scaled blocks
    .ok ((addr, edges ++ scaled) :: rest)

def getPerScopePersistenceEdges :
    Except Fault (OrderedMap PersistenceScope PersistenceBlocks) := do
  let maps ← (innerEdges provider.stgr.getGraph).foldlM provider.collectEdge .empty
  let scope2addr2edges ← mergeArrays provider.staticAddresses provider.Dlinesize maps
  (scope2addr2edges.mapValues fun scope blocks =>
    match maps.scope2enteredges.find? scope with
    | none => .ok blocks
    | some varCoeffVec => provider.subtractEnterEdges varCoeffVec blocks).sequence

def getPersistenceConstraints : Except Fault (List GraphConstraint) := do
  let scope2addr2edges ← provider.getPerScopePersistenceEdges
  .ok (persistenceConstraints scope2addr2edges)

end StateGraphCacheMissProvider

end Llvmta
