import Llvmta.Library.CheckedVector
import Llvmta.PartitionUtil.Context
import Llvmta.Util.Graph

/-!
# The inner edges of loops and calls

`GetEdges` selects the edges of the state graph that are inside of a loop or a call: all
edges, those inside of program runs, or those that a search from the edges into it finds
before the edges out of it. What a search has found for a loop or call site is kept.
-/

namespace Llvmta

inductive GetEdgesMethod where
  | all
  | insideProgramRuns
  | betweenInOutReachableSimple
  | betweenInOutReachableSimplePlus
  | betweenInOutReachableDetailed
  deriving DecidableEq, Repr

/-- The loop or call site that edges are kept for. -/
inductive CacheId where
  | loopHeader (bb : MachineBasicBlock)
  | callSite (cs : CallSite)
  deriving DecidableEq

/-- What the searches have found before. -/
structure EdgeCaches where
  betweenInOutReachableSimpleCache : CacheId → Option (List GraphEdge)
  betweenInOutReachableSimplePlusCache : CacheId → Option (List GraphEdge)
  betweenInOutReachableDetailedCache : CacheId → Option (List GraphEdge)

def EdgeCaches.empty : EdgeCaches := ⟨fun _ => none, fun _ => none, fun _ => none⟩

/-- `insert` of a set -/
def insertEdge (edges : List GraphEdge) (edge : GraphEdge) : List GraphEdge :=
  if edge ∈ edges then edges else edges ++ [edge]

/-- The state of a search. -/
structure EdgeSearch where
  workList : List ℕ
  alreadyListed : List ℕ
  reachableBetweenEdges : List GraphEdge
  reachableInEdges : List GraphEdge
  reachableOutEdges : List GraphEdge
  deriving Repr

namespace EdgeSearch

def list (search : EdgeSearch) (vertex : ℕ) : EdgeSearch :=
  if vertex ∈ search.alreadyListed then search
  else { search with
    workList := search.workList ++ [vertex]
    alreadyListed := vertex :: search.alreadyListed }

/-- Vertex 0 stands for a restart of the program and is not searched. -/
def visitEdge (inEdges outEdges : List GraphEdge) (search : EdgeSearch) (edge : GraphEdge) :
    Except Fault EdgeSearch :=
  if edge.2 = 0 then .ok search
  else if edge ∈ inEdges then do
    assertThat (decide (edge ∉ outEdges)) "The in edges and out edges should not overlap."
    .ok { search with reachableInEdges := insertEdge search.reachableInEdges edge }
  else if edge ∈ outEdges then
    .ok { search with reachableOutEdges := insertEdge search.reachableOutEdges edge }
  else
    let found := insertEdge search.reachableBetweenEdges edge
    .ok ({ search with reachableBetweenEdges := found }.list edge.2)

def run (G : Graph) (inEdges outEdges : List GraphEdge) :
    (fuel : ℕ) → EdgeSearch → Except Fault EdgeSearch
  | 0, search => if search.workList = [] then .ok search else .error .divergence
  | fuel + 1, search =>
    match search.workList with
    | [] => .ok search
    | current :: workList => do
      let edges := (G.getSuccessors current).map fun succ => (current, succ)
      let search ← edges.foldlM (visitEdge inEdges outEdges) { search with workList := workList }
      run G inEdges outEdges fuel search

end EdgeSearch

/-- The search from the targets of the edges into a loop or call. -/
def getEdgesBetween (G : Graph) (inEdges outEdges : List GraphEdge) : Except Fault EdgeSearch :=
  let start := (inEdges.map Prod.snd).foldl EdgeSearch.list ⟨[], [], [], [], []⟩
  EdgeSearch.run G inEdges outEdges (inEdges.length + G.vertices.card) start

section Methods

variable (G : Graph) (inEdges outEdges : List GraphEdge)

/-- All edges that are found. -/
def betweenInOutReachableSimple : Except Fault (List GraphEdge) := do
  let search ← getEdgesBetween G inEdges outEdges
  .ok (search.reachableBetweenEdges ++ search.reachableInEdges ++ search.reachableOutEdges)

/-- The edges in and out count only if an edge in is found. -/
def betweenInOutReachableSimplePlus : Except Fault (List GraphEdge) := do
  let search ← getEdgesBetween G inEdges outEdges
  if search.reachableInEdges = [] then .ok search.reachableBetweenEdges
  else .ok (search.reachableBetweenEdges ++ search.reachableInEdges ++ search.reachableOutEdges)

/-- Of the edges out those count that are found from an edge in that is found. -/
def betweenInOutReachableDetailed : Except Fault (List GraphEdge) := do
  let search ← getEdgesBetween G inEdges outEdges
  if search.reachableInEdges = [] then .ok search.reachableBetweenEdges
  else do
    let again ← getEdgesBetween G search.reachableInEdges outEdges
    .ok ((again.reachableBetweenEdges ++ again.reachableOutEdges).foldl insertEdge
      (search.reachableBetweenEdges ++ search.reachableInEdges))

end Methods

/-- What has been found before for this loop or call site is returned without a search. -/
def cached (cache : CacheId → Option (List GraphEdge)) (cacheId : CacheId)
    (search : Except Fault (List GraphEdge)) :
    Except Fault (List GraphEdge × (CacheId → Option (List GraphEdge))) :=
  match cache cacheId with
  | some edges => .ok (edges, cache)
  | none => do
    let edges ← search
    .ok (edges, Function.update cache cacheId (some edges))

namespace GetEdgesMethod

/-- Whether the method uses the edges in and out. -/
def usesBorder : GetEdgesMethod → Bool
  | all => false
  | insideProgramRuns => false
  | betweenInOutReachableSimple => true
  | betweenInOutReachableSimplePlus => true
  | betweenInOutReachableDetailed => true

def getInnerEdges (method : GetEdgesMethod) (G : Graph) (caches : EdgeCaches)
    (inEdges outEdges : List GraphEdge) (cacheId : CacheId) :
    Except Fault (List GraphEdge × EdgeCaches) :=
  match method with
  | all => .ok (G.edges, caches)
  | insideProgramRuns => .ok (innerEdges G, caches)
  | betweenInOutReachableSimple => do
    let (edges, cache) ← cached caches.betweenInOutReachableSimpleCache cacheId
      (Llvmta.betweenInOutReachableSimple G inEdges outEdges)
    .ok (edges, { caches with betweenInOutReachableSimpleCache := cache })
  | betweenInOutReachableSimplePlus => do
    let (edges, cache) ← cached caches.betweenInOutReachableSimplePlusCache cacheId
      (Llvmta.betweenInOutReachableSimplePlus G inEdges outEdges)
    .ok (edges, { caches with betweenInOutReachableSimplePlusCache := cache })
  | betweenInOutReachableDetailed => do
    let (edges, cache) ← cached caches.betweenInOutReachableDetailedCache cacheId
      (Llvmta.betweenInOutReachableDetailed G inEdges outEdges)
    .ok (edges, { caches with betweenInOutReachableDetailedCache := cache })

end GetEdgesMethod

end Llvmta
