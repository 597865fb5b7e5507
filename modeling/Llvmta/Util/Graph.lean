import Mathlib.Data.Finset.Lattice.Fold
import Mathlib.Data.List.Flatten
import Mathlib.Tactic

/-!
# Graphs

Directed graphs by the numbers of their vertices. All sets of vertices are walked in the
order of these numbers.
-/

namespace Llvmta

/-- The edges between the numbers of vertices. -/
abbrev GraphEdge := ℕ × ℕ

/-- Membership of edges is decided by the equality of their ends. -/
instance instLawfulBEqGraphEdge : LawfulBEq GraphEdge := inferInstance

/-- A finite graph, by the sets of successors and predecessors of its vertices;
both are sets in their iteration order. -/
structure Graph where
  vertices : Finset ℕ
  successors : ℕ → List ℕ
  predecessors : ℕ → List ℕ
  sorted_successors : ∀ u, (successors u).Pairwise (· < ·)
  sorted_predecessors : ∀ v, (predecessors v).Pairwise (· < ·)
  mem_predecessors : ∀ u v, u ∈ predecessors v ↔ v ∈ successors u
  mem_vertices : ∀ u v, v ∈ successors u → u ∈ vertices ∧ v ∈ vertices

namespace Graph

variable (G : Graph)

def getSuccessors (vertexId : ℕ) : List ℕ := G.successors vertexId

def getPredecessors (vertexId : ℕ) : List ℕ := G.predecessors vertexId

/-- The adjacent vertices in the direction of the analysis. -/
def adjacentNodes (backwards : Bool) (vertexId : ℕ) : List ℕ :=
  if backwards then G.getPredecessors vertexId else G.getSuccessors vertexId

theorem mem_vertices_of_adjacent {backwards : Bool} {u v : ℕ}
    (h : v ∈ G.adjacentNodes backwards u) : v ∈ G.vertices := by
  cases backwards with
  | false => exact (G.mem_vertices u v h).2
  | true => exact (G.mem_vertices v u ((G.mem_predecessors v u).mp h)).1

/-- The vertices in their order. -/
def getVertices : List ℕ :=
  (List.range (G.vertices.sup id + 1)).filter fun v => decide (v ∈ G.vertices)

theorem mem_getVertices {v : ℕ} : v ∈ G.getVertices ↔ v ∈ G.vertices := by
  rw [getVertices, List.mem_filter, List.mem_range, decide_eq_true_iff]
  constructor
  · exact fun h => h.2
  · intro h
    exact ⟨Nat.lt_succ_of_le (Finset.le_sup (f := id) h), h⟩

def hasEdge (edge : GraphEdge) : Prop := edge.2 ∈ G.getSuccessors edge.1

instance (edge : GraphEdge) : Decidable (G.hasEdge edge) :=
  inferInstanceAs (Decidable (edge.2 ∈ G.getSuccessors edge.1))

/-- The edges in the order in which the loops over the vertices and their successors visit
them. -/
def edges : List GraphEdge :=
  G.getVertices.flatMap fun v => (G.getSuccessors v).map fun succ => (v, succ)

variable {G} {edge : GraphEdge}

theorem mem_edges : edge ∈ G.edges ↔ G.hasEdge edge := by
  simp only [edges, List.mem_flatMap, List.mem_map]
  constructor
  · rintro ⟨v, _, succ, hsucc, rfl⟩
    exact hsucc
  · intro h
    exact ⟨edge.1, G.mem_getVertices.mpr (G.mem_vertices _ _ h).1, edge.2, h, rfl⟩

theorem mem_getPredecessors : edge.1 ∈ G.getPredecessors edge.2 ↔ G.hasEdge edge :=
  G.mem_predecessors edge.1 edge.2

theorem edges_nodup (G : Graph) : G.edges.Nodup := by
  rw [edges, List.nodup_flatMap]
  constructor
  · intro v _
    have hnodup : (G.getSuccessors v).Nodup := (G.sorted_successors v).imp fun h => ne_of_lt h
    exact hnodup.map fun a b h => (Prod.mk.inj h).2
  · have hnodup : G.getVertices.Nodup := List.nodup_range.filter _
    apply hnodup.imp
    intro v v' hne edge hedge hedge'
    obtain ⟨_, _, rfl⟩ := List.mem_map.mp hedge
    obtain ⟨_, _, heq⟩ := List.mem_map.mp hedge'
    exact hne (Prod.mk.inj heq).1.symm

/-- The graph with the given edges. -/
def ofEdges (edges : List GraphEdge) : Graph :=
  let vertices := (edges.map Prod.fst ++ edges.map Prod.snd).toFinset
  let numbers := List.range (vertices.sup id + 1)
  { vertices := vertices
    successors := fun u => numbers.filter fun v => decide ((u, v) ∈ edges)
    predecessors := fun v => numbers.filter fun u => decide ((u, v) ∈ edges)
    sorted_successors := fun _ => List.pairwise_lt_range.filter _
    sorted_predecessors := fun _ => List.pairwise_lt_range.filter _
    mem_predecessors := by
      have hnumbers : ∀ e ∈ edges, e.1 ∈ numbers ∧ e.2 ∈ numbers := by
        intro e he
        have hmem : e.1 ∈ vertices ∧ e.2 ∈ vertices := by
          simp only [vertices, List.mem_toFinset, List.mem_append, List.mem_map]
          exact ⟨.inl ⟨e, he, rfl⟩, .inr ⟨e, he, rfl⟩⟩
        exact ⟨List.mem_range.mpr (Nat.lt_succ_of_le (Finset.le_sup (f := id) hmem.1)),
          List.mem_range.mpr (Nat.lt_succ_of_le (Finset.le_sup (f := id) hmem.2))⟩
      intro u v
      rw [List.mem_filter, List.mem_filter, decide_eq_true_iff]
      constructor
      · exact fun h => ⟨(hnumbers _ h.2).2, h.2⟩
      · exact fun h => ⟨(hnumbers _ h.2).1, h.2⟩
    mem_vertices := by
      intro u v h
      have hmem : (u, v) ∈ edges := of_decide_eq_true (List.mem_filter.mp h).2
      simp only [vertices, List.mem_toFinset, List.mem_append, List.mem_map]
      exact ⟨.inl ⟨_, hmem, rfl⟩, .inr ⟨_, hmem, rfl⟩⟩ }

/-- A walk from one vertex to another. -/
def Walk (G : Graph) : ℕ → List GraphEdge → ℕ → Prop
  | u, [], v => u = v
  | u, edge :: path, v => edge.1 = u ∧ G.hasEdge edge ∧ G.Walk edge.2 path v

instance decidableWalk (G : Graph) : (u : ℕ) → (path : List GraphEdge) → (v : ℕ) →
    Decidable (G.Walk u path v)
  | u, [], v => inferInstanceAs (Decidable (u = v))
  | u, edge :: path, v =>
    have := decidableWalk G edge.2 path v
    inferInstanceAs (Decidable (edge.1 = u ∧ G.hasEdge edge ∧ G.Walk edge.2 path v))

theorem Walk.hasEdge {path : List GraphEdge} {u v : ℕ} (h : G.Walk u path v) :
    ∀ edge ∈ path, G.hasEdge edge := by
  induction path generalizing u with
  | nil => exact fun _ hmem => nomatch hmem
  | cons e path ih =>
    intro edge hmem
    rcases List.mem_cons.mp hmem with rfl | hmem
    · exact h.2.1
    · exact ih h.2.2 edge hmem

/-- A walk leaves a vertex once more than it comes to it if it starts there, and once less if
it ends there. -/
theorem Walk.count_eq {path : List GraphEdge} {u v : ℕ} (h : G.Walk u path v) (w : ℕ) :
    path.countP (·.1 = w) + (if v = w then 1 else 0) =
      path.countP (·.2 = w) + if u = w then 1 else 0 := by
  induction path generalizing u with
  | nil =>
    have huv : u = v := h
    rw [huv]
    rfl
  | cons e path ih =>
    obtain ⟨hsource, _, hrest⟩ := h
    have hstep := ih hrest
    rw [List.countP_cons, List.countP_cons, hsource]
    simp only [decide_eq_true_eq] at hstep ⊢
    omega

end Graph

/-- The edges that are not at the special vertex. -/
def innerEdges (G : Graph) : List GraphEdge :=
  G.edges.filter fun edge => decide (edge.1 ≠ 0) && decide (edge.2 ≠ 0)

end Llvmta
