import Llvmta.AnalysisFramework.GraphIterator

/-!
# The accumulated effect of all edges

An analysis that depends neither on the order of the accesses nor on the paths of a program
updates one cache with the addresses of each edge.
-/

namespace Llvmta

open Checked

variable {χ : Type} (G : Graph) (P : EdgeWeightProvider (List AbstractAddress))
  (update : χ → AbstractAddress → AccessType → Except Fault χ)

/-- The body of the loop over the successors. -/
def updateAlongEdge (Node : ℕ) (Analysis : χ) (S : ℕ) : Except Fault χ :=
  if P.hasWeight Node S then
    ((P.getWeight Node S).getD []).foldlM (fun Analysis A => update Analysis A .load) Analysis
  else .ok Analysis

def runSimpleAccumulatedEdgeEffectAnalysis (Analysis : χ) : Except Fault χ :=
  G.getVertices.foldlM
    (fun Analysis Node => (G.getSuccessors Node).foldlM (updateAlongEdge P update Node) Analysis)
    Analysis

/-- The addresses of an edge, none if it has no weight. -/
def EdgeWeightProvider.addresses (edge : GraphEdge) : List AbstractAddress :=
  (P.getWeight edge.1 edge.2).getD []

/-- The addresses of all edges. -/
def edgeAccesses : List AbstractAddress := G.edges.flatMap P.addresses

theorem foldlM_flatMap {α β σ ε : Type} (f : α → List β) (step : σ → β → Except ε σ)
    (l : List α) (s : σ) :
    (l.flatMap f).foldlM step s = l.foldlM (fun s a => (f a).foldlM step s) s := by
  induction l generalizing s with
  | nil => rfl
  | cons a l ih =>
    rw [List.flatMap_cons, List.foldlM_append, List.foldlM_cons]
    simp only [ih]

theorem updateAlongEdge_eq (Node : ℕ) (Analysis : χ) (S : ℕ) :
    updateAlongEdge P update Node Analysis S =
      (P.addresses (Node, S)).foldlM (fun Analysis A => update Analysis A .load) Analysis := by
  unfold updateAlongEdge EdgeWeightProvider.addresses EdgeWeightProvider.hasWeight
    EdgeWeightProvider.getWeight
  cases P.edge2weight (Node, S) with
  | none => rfl
  | some addresses => rfl

/-- The loops make one update for each address of each edge. -/
theorem runSimpleAccumulatedEdgeEffectAnalysis_eq (Analysis : χ) :
    runSimpleAccumulatedEdgeEffectAnalysis G P update Analysis =
      (edgeAccesses G P).foldlM (fun Analysis A => update Analysis A .load) Analysis := by
  have hedges (Node : ℕ) (Analysis : χ) :
      (G.getSuccessors Node).foldlM (updateAlongEdge P update Node) Analysis =
        (((G.getSuccessors Node).map fun succ => (Node, succ)).flatMap P.addresses).foldlM
          (fun Analysis A => update Analysis A .load) Analysis := by
    rw [foldlM_flatMap, List.foldlM_map]
    simp only [← updateAlongEdge_eq]
  unfold runSimpleAccumulatedEdgeEffectAnalysis edgeAccesses Graph.edges
  rw [List.flatMap_assoc, foldlM_flatMap]
  simp only [hedges]

end Llvmta
