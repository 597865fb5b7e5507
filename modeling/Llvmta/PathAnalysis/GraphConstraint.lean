import Mathlib.Algebra.BigOperators.Group.List.Basic
import Mathlib.Algebra.Order.Ring.Int
import Llvmta.Util.Graph

/-!
# Linear constraints on the edges of a graph

A constraint compares a linear combination of variables with a constant. The variables
say how often an edge is taken by a path, and whether the path starts or ends with it.
The coefficients are numbers of lines, of iterations or of edges: integers that are
represented exactly.
-/

namespace Llvmta

/-- The types of variables that belong to an edge. -/
inductive VariableType where
  | timesTaken
  | isStart
  | isEnd
  deriving DecidableEq, Repr

structure Variable where
  type : VariableType
  edge : GraphEdge
  deriving DecidableEq, Repr

def Variable.getEdgeVar (type : VariableType) (edge : GraphEdge) : Variable := ⟨type, edge⟩

abbrev VarCoeffVector := List (Variable × ℤ)

def scaleVarCoeffVector (v : VarCoeffVector) (s : ℤ) : VarCoeffVector :=
  v.map fun vc => (vc.1, vc.2 * s)

inductive ConstraintType where
  | lessEqual
  | greaterEqual
  | equal
  deriving DecidableEq, Repr

structure GraphConstraint where
  vector : VarCoeffVector
  type : ConstraintType
  rhs : ℤ
  deriving DecidableEq, Repr

/-- The value of a linear combination. -/
def value (x : Variable → ℤ) (v : VarCoeffVector) : ℤ := (v.map fun vc => x vc.1 * vc.2).sum

def GraphConstraint.Satisfied (x : Variable → ℤ) (c : GraphConstraint) : Prop :=
  match c.type with
  | .lessEqual => value x c.vector ≤ c.rhs
  | .greaterEqual => c.rhs ≤ value x c.vector
  | .equal => value x c.vector = c.rhs

instance (x : Variable → ℤ) (c : GraphConstraint) : Decidable (c.Satisfied x) := by
  unfold GraphConstraint.Satisfied
  cases c.type <;> infer_instance

section Value

variable {x y : Variable → ℤ} {v w : VarCoeffVector}

@[simp] theorem value_nil : value x [] = 0 := rfl

@[simp] theorem value_cons (vc : Variable × ℤ) : value x (vc :: v) = x vc.1 * vc.2 + value x v :=
  List.sum_cons

@[simp] theorem value_append : value x (v ++ w) = value x v + value x w := by
  unfold value
  rw [List.map_append, List.sum_append]

@[simp] theorem value_scale (s : ℤ) : value x (scaleVarCoeffVector v s) = value x v * s := by
  induction v with
  | nil => exact (zero_mul s).symm
  | cons vc v ih =>
    change value x ((vc.1, vc.2 * s) :: scaleVarCoeffVector v s) = value x (vc :: v) * s
    rw [value_cons, value_cons, ih, add_mul, mul_assoc]

theorem value_add : value (fun var => x var + y var) v = value x v + value y v := by
  induction v with
  | nil => rfl
  | cons vc v ih =>
    rw [value_cons, value_cons, value_cons, ih]
    ring

theorem value_zero : value (fun _ => 0) v = 0 := by
  induction v with
  | nil => rfl
  | cons vc v ih => rw [value_cons, ih, zero_mul, add_zero]

end Value

/-- A sum over a set of edges has one term for each. -/
theorem sum_ite_eq {edges : List GraphEdge} {e : GraphEdge} (hedges : edges.Nodup)
    (f : GraphEdge → ℤ) :
    (edges.map fun edge => if edge = e then f edge else 0).sum = if e ∈ edges then f e else 0 := by
  induction edges with
  | nil => rfl
  | cons edge edges ih =>
    obtain ⟨hnotin, hnodup⟩ := List.nodup_cons.mp hedges
    rw [List.map_cons, List.sum_cons, ih hnodup]
    by_cases he : edge = e
    · subst he
      rw [if_pos rfl, if_neg hnotin, if_pos List.mem_cons_self, add_zero]
    · rw [if_neg he, zero_add]
      simp [Ne.symm he]

/-- An edge is taken once. -/
def taken (edge : GraphEdge) (var : Variable) : ℤ :=
  if var = .getEdgeVar .timesTaken edge then 1 else 0

/-- How often a path takes each edge; it has no start and no end edge. -/
def timesTaken (path : List GraphEdge) (var : Variable) : ℤ :=
  match var.type with
  | .timesTaken => path.count var.edge
  | .isStart => 0
  | .isEnd => 0

theorem timesTaken_cons (edge : GraphEdge) (path : List GraphEdge) (var : Variable) :
    timesTaken (edge :: path) var = taken edge var + timesTaken path var := by
  obtain ⟨type, e⟩ := var
  unfold timesTaken taken Variable.getEdgeVar
  cases type with
  | timesTaken =>
    dsimp only
    rw [List.count_cons, Nat.cast_add, add_comm]
    by_cases he : edge = e
    · simp [he]
    · simp [he, Ne.symm he]
  | isStart => rfl
  | isEnd => rfl

/-- Along a path the values of its edges are added up. -/
theorem value_timesTaken (path : List GraphEdge) (v : VarCoeffVector) :
    value (timesTaken path) v = (path.map fun edge => value (taken edge) v).sum := by
  induction path with
  | nil =>
    have hzero : timesTaken [] = fun _ => 0 := by
      funext var
      unfold timesTaken
      cases var.type <;> rfl
    rw [hzero, value_zero]
    rfl
  | cons edge path ih =>
    have hadd : timesTaken (edge :: path) = fun var => taken edge var + timesTaken path var :=
      funext (timesTaken_cons edge path)
    rw [hadd, value_add, ih, List.map_cons, List.sum_cons]

end Llvmta
