import Llvmta.Library.OrderedMap
import Llvmta.Memory.MemoryTopologyInterface
import Llvmta.PathAnalysis.StateGraph
import Llvmta.PreprocessingAnalysis.AddressInformation

/-!
# The edges of persistent accesses

An edge of the state graph is annotated with accesses, to a cache line or to some line of
an array, and with the scopes in which they are persistent. `getPerScopePersistenceEdges`
collects these edges for each scope and each line or array. The edges of the lines of an
array are added to those of the array.
-/

namespace Llvmta

/-- An access and the set of scopes in which it is persistent. -/
structure Annotation where
  address : DataAddress
  scopes : List PersistenceScope
  scopes_nodup : scopes.Nodup
  deriving DecidableEq

/-- Edges with coefficients, for each scope and each key. -/
abbrev ScopeMap (κ : Type) [LinearOrder κ] :=
  OrderedMap PersistenceScope (OrderedMap κ VarCoeffVector)

/-- The edges of each line and each array, in the order of their addresses. -/
abbrev PersistenceBlocks := List (DataAddress × VarCoeffVector)

section Maps

variable {κ : Type} [LinearOrder κ]

/-- `operator[]` of a map of vectors. -/
def vectorAt (m : OrderedMap κ VarCoeffVector) (k : κ) : VarCoeffVector := (m.find? k).getD []

namespace ScopeMap

/-- `operator[]` of a map of maps. -/
def keysOf (m : ScopeMap κ) (scope : PersistenceScope) : OrderedMap κ VarCoeffVector :=
  (m.find? scope).getD .empty

def push (m : ScopeMap κ) (scope : PersistenceScope) (k : κ) (varCoeff : Variable × ℤ) :
    ScopeMap κ :=
  let keys := m.keysOf scope
  m.insert scope (keys.insert k (vectorAt keys k ++ [varCoeff]))

end ScopeMap

end Maps

/-- The maps that the edges of the graph are sorted into. -/
structure PersistenceMaps where
  scope2addr2edges : ScopeMap Word
  scope2array2edges : ScopeMap GlobalVariable
  scope2enteredges : OrderedMap PersistenceScope VarCoeffVector

namespace PersistenceMaps

def empty : PersistenceMaps := ⟨.empty, .empty, .empty⟩

def addEntered (edge : GraphEdge) (maps : PersistenceMaps) (scope : PersistenceScope) :
    PersistenceMaps :=
  let entered := vectorAt maps.scope2enteredges scope ++ [(.getEdgeVar .timesTaken edge, -1)]
  { maps with scope2enteredges := maps.scope2enteredges.insert scope entered }

def addAccess (edge : GraphEdge) (addr : DataAddress) (maps : PersistenceMaps)
    (scope : PersistenceScope) : Except Fault PersistenceMaps :=
  let varCoeff : Variable × ℤ := (.getEdgeVar .timesTaken edge, 1)
  match addr with
  | .array glvar =>
    .ok { maps with scope2array2edges := maps.scope2array2edges.push scope glvar varCoeff }
  | .interval lower upper => do
    assertThat (lower == upper) "addr.isPrecise()"
    .ok { maps with scope2addr2edges := maps.scope2addr2edges.push scope lower varCoeff }

def addAnnotation (edge : GraphEdge) (maps : PersistenceMaps) (addr2scopes : Annotation) :
    Except Fault PersistenceMaps :=
  addr2scopes.scopes.foldlM (addAccess edge addr2scopes.address) maps

end PersistenceMaps

/-- The edges of the lines from the start of an array to its end are added to its own. -/
def mergeElements (P : StaticAddresses) (Dlinesize : Word)
    (addr2edges : OrderedMap Word VarCoeffVector) (glvar : GlobalVariable) (vcv : VarCoeffVector) :
    Except Fault VarCoeffVector := do
  let addr ← P.getGlobalVarAddress glvar
  let base := alignTo Dlinesize addr
  let last := alignTo Dlinesize (base + P.getArraySize glvar)
  .ok (addr2edges.entries.foldl (fun vcv addr2edges =>
    if addr2edges.1 < base ∨ last < addr2edges.1 then vcv else vcv ++ addr2edges.2) vcv)

/-- The lines of a scope and, behind them, its arrays. -/
def mergeScope (P : StaticAddresses) (Dlinesize : Word)
    (addr2edges : OrderedMap Word VarCoeffVector)
    (array2edges : OrderedMap GlobalVariable VarCoeffVector) : Except Fault PersistenceBlocks := do
  let arrays ← (array2edges.mapValues (mergeElements P Dlinesize addr2edges)).sequence
  .ok (addr2edges.entries.map (fun e => (DataAddress.ofAddress e.1, e.2)) ++
    arrays.entries.map fun e => (DataAddress.array e.1, e.2))

def mergeArrays (P : StaticAddresses) (Dlinesize : Word) (maps : PersistenceMaps) :
    Except Fault (OrderedMap PersistenceScope PersistenceBlocks) :=
  (OrderedMap.merge (fun _ addr2edges array2edges =>
    mergeScope P Dlinesize (addr2edges.getD .empty) (array2edges.getD .empty))
    maps.scope2addr2edges maps.scope2array2edges).sequence

/-- The number of lines of an address. -/
def lineWidth (P : StaticAddresses) (linesize : Word) (addr : DataAddress) : Except Fault ℤ := do
  let (lower, upper) ← addr.getAsInterval P
  let distance := alignTo linesize upper - alignTo linesize lower
  assertThat (distance % linesize == 0) "distance % linesize == 0"
  .ok ((distance / linesize + 1).toNat : ℤ)

/-- The sums over all edges must not be positive. -/
def persistenceConstraints (scope2addr2edges : OrderedMap PersistenceScope PersistenceBlocks) :
    List GraphConstraint :=
  scope2addr2edges.entries.flatMap fun scope2x =>
    scope2x.2.map fun addr2edges => ⟨addr2edges.2, .lessEqual, 0⟩

end Llvmta
