import Llvmta.Library.CheckedVector
import Llvmta.Memory.CacheTraits
import Llvmta.Util.Graph

/-!
# The fixpoint iteration over a program graph

`runFixpointAnalysis` propagates cache states along the edges of a graph, from
vertex 0 on and in either direction. The worklist is an ordered set, of which
the least vertex is taken first. The domain of cache states is a parameter: its
`join` is the join of a semilattice, `lessequal` the order of this semilattice
and `equals` the equality.
-/

namespace Llvmta

open Checked

/-- `edge2weight`: the weights of the edges that have one. -/
structure EdgeWeightProvider (W : Type) where
  edge2weight : ℕ × ℕ → Option W

namespace EdgeWeightProvider

variable {W : Type} (P : EdgeWeightProvider W)

def getWeight (a b : ℕ) : Option W := P.edge2weight (a, b)

def hasWeight (a b : ℕ) : Bool := (P.edge2weight (a, b)).isSome

end EdgeWeightProvider

/-- What the iteration uses of a cache, beside `join` and `equals`. `ι` is the
additional information that `update` may depend on. -/
structure CacheDomain (χ ι : Type) where
  new : (assumeAnEmptyCache : Bool) → χ
  update : χ → AbstractAddress → AccessType → Option ι → χ

/-- The states collected so far and the vertices whose neighbours have to be
considered again. -/
structure FixpointState (χ : Type) where
  cacheStates : ℕ → Option χ
  worklist : Finset ℕ

/-- The input of the analysis. The additional information, if there is any, has
an entry for every program point. -/
structure GraphIterator (χ ι : Type) where
  domain : CacheDomain χ ι
  simpleGraph : Graph
  provider : EdgeWeightProvider (List AbstractAddress)
  addInfo : Option (ℕ → ι)
  backwards : Bool

namespace GraphIterator

variable {χ ι : Type} [SemilatticeSup χ] [DecidableEq χ] (I : GraphIterator χ ι)

/-- The vertices a vertex hands its state on to. -/
def adjacentNodes (next : ℕ) : List ℕ := I.simpleGraph.adjacentNodes I.backwards next

/-- The addresses accessed between `next` and its neighbour `n`, in the direction
of the analysis. -/
def edgeAddresses (next n : ℕ) : List AbstractAddress :=
  if I.backwards then ((I.provider.getWeight n next).getD []).reverse
  else (I.provider.getWeight next n).getD []

/-- The updates of an edge, with the additional information of `n`. -/
def applyEdge (next n : ℕ) (cache : χ) : χ :=
  (I.edgeAddresses next n).foldl
    (fun c a => I.domain.update c a .load (I.addInfo.map fun info => info n)) cache

/-- `(*CacheStates)[n] = cache`, and `n` is queued. -/
def store (s : FixpointState χ) (n : ℕ) (cache : χ) : FixpointState χ :=
  ⟨Function.update s.cacheStates n (some cache), insert n s.worklist⟩

/-- What becomes of the state that reaches `n`: it is stored at the first visit
and otherwise joined to the stored one if it differs from that. -/
def propagate (s : FixpointState χ) (n : ℕ) (cache : χ) : FixpointState χ :=
  match s.cacheStates n with
  | none => store s n cache
  | some stored => if cache = stored then s else store s n (stored ⊔ cache)

/-- The body of the loop over the neighbours. -/
def processNeighbour (next : ℕ) (s : FixpointState χ) (n : ℕ) : Except Fault (FixpointState χ) :=
  if n = 0 then .ok s
  else match s.cacheStates next with
    | none => .error .outOfBounds
    | some cache => .ok (propagate s n (I.applyEdge next n cache))

/-- One round of the loop: `next` has been taken from the worklist. -/
def processNode (next : ℕ) (s : FixpointState χ) : Except Fault (FixpointState χ) :=
  (I.adjacentNodes next).foldlM (I.processNeighbour next) s

/-- The start of the loop: vertex 0 with the empty cache. -/
def start : FixpointState χ :=
  ⟨Function.update (fun _ => none) 0 (some (I.domain.new true)), {0}⟩

/-- The vertex that is taken next. -/
def front (s : FixpointState χ) : Option ℕ := s.worklist.min

/-- `while (!Worklist.empty())`, for at most `fuel` rounds. -/
def loop : ℕ → FixpointState χ → Except Fault (ℕ → Option χ)
  | 0, _ => .error .divergence
  | fuel + 1, s =>
    match front s with
    | none => .ok s.cacheStates
    | some next => do
      let s ← I.processNode next { s with worklist := s.worklist.erase next }
      loop fuel s

def runFixpointAnalysis (fuel : ℕ) : Except Fault (ℕ → Option χ) := I.loop fuel I.start

end GraphIterator

end Llvmta
