import Llvmta.Library.PerEntry
import Llvmta.PathAnalysis.FlowConstraintProvider

/-!
# Runs of the program

A run is a walk from the special vertex back to it in which calls and returns are nested
and, in each context, a loop iterates within its bound after each entry. The peeled
iterations are ended once each, in their order.
-/

namespace Llvmta

open PerEntry

/-- Calls and returns along a path, with the call sites of the calls that have not returned. -/
inductive Nested (sg : StateGraph) : List CallSite → List GraphEdge → Prop
  | finished : Nested sg [] []
  | call {stack : List CallSite} {path : List GraphEdge} {edge : GraphEdge} {cs : CallSite} :
    (∀ cs', edge.1 ∈ sg.getCallStates cs' ↔ cs' = cs) → (∀ cs', edge.2 ∉ sg.getReturnStates cs') →
    Nested sg (cs :: stack) path → Nested sg stack (edge :: path)
  | ret {stack : List CallSite} {path : List GraphEdge} {edge : GraphEdge} {cs : CallSite} :
    (∀ cs', edge.1 ∉ sg.getCallStates cs') → (∀ cs', edge.2 ∈ sg.getReturnStates cs' ↔ cs' = cs) →
    Nested sg stack path → Nested sg (cs :: stack) (edge :: path)
  | inner {stack : List CallSite} {path : List GraphEdge} {edge : GraphEdge} :
    (∀ cs', edge.1 ∉ sg.getCallStates cs') → (∀ cs', edge.2 ∉ sg.getReturnStates cs') →
    Nested sg stack path → Nested sg stack (edge :: path)

theorem Nested.of_no_calls {sg : StateGraph} (hcalls : ∀ cs, sg.getCallStates cs = [])
    (hreturns : ∀ cs, sg.getReturnStates cs = []) (path : List GraphEdge) : Nested sg [] path := by
  induction path with
  | nil => exact .finished
  | cons edge path ih =>
    apply Nested.inner _ _ ih
    · intro cs hmem
      rw [hcalls] at hmem
      exact nomatch hmem
    · intro cs hmem
      rw [hreturns] at hmem
      exact nomatch hmem

/-- Each call of a call site returns. -/
theorem Nested.count_eq {sg : StateGraph} {stack : List CallSite} {path : List GraphEdge}
    (h : Nested sg stack path) (cs : CallSite) :
    path.countP (·.1 ∈ sg.getCallStates cs) + stack.count cs =
      path.countP (·.2 ∈ sg.getReturnStates cs) := by
  induction h with
  | finished => rfl
  | @call stack path edge cs' hcall hreturn _ ih =>
    rw [List.countP_cons, List.countP_cons, decide_eq_false (hreturn cs)]
    rw [List.count_cons] at ih
    by_cases hcs : cs = cs'
    · rw [decide_eq_true ((hcall cs).mpr hcs)]
      simp only [hcs, beq_self_eq_true, if_true] at ih ⊢
      simpa [Nat.add_assoc, Nat.add_comm 1] using ih
    · rw [decide_eq_false fun hmem => hcs ((hcall cs).mp hmem)]
      simpa [Ne.symm hcs] using ih
  | @ret stack path edge cs' hcall hreturn _ ih =>
    rw [List.countP_cons, List.countP_cons, decide_eq_false (hcall cs), List.count_cons]
    by_cases hcs : cs = cs'
    · rw [decide_eq_true ((hreturn cs).mpr hcs)]
      simp only [hcs, beq_self_eq_true, if_true] at ih ⊢
      simpa [← Nat.add_assoc] using ih
    · rw [decide_eq_false fun hmem => hcs ((hreturn cs).mp hmem)]
      simpa [Ne.symm hcs] using ih
  | inner hcall hreturn _ ih =>
    rw [List.countP_cons, List.countP_cons, decide_eq_false (hcall cs),
      decide_eq_false (hreturn cs)]
    simpa using ih

/-- The iteration that a token tells of a loop. -/
def PartitionToken.iterationIn (loop : MachineLoop) : PartitionToken → Option ℕ
  | loopPeel peeled _ taken => if peeled.getBlocks = loop.getBlocks then some taken else Option.none
  | loopIter iterated _ taken =>
    if iterated.getBlocks = loop.getBlocks then some taken else Option.none
  | _ => Option.none

namespace FlowConstraintProvider

variable (provider : FlowConstraintProvider)

/-- An edge to the header of a loop from a state that is not in the loop. -/
def IsEntryEdge (loop : MachineLoop) (edge : GraphEdge) : Prop :=
  edge.2 ∈ provider.graph.getInStates loop.getHeader ∧
    ∃ predBB ∈ provider.controlFlow.getNonEmptyPredecessorBasicBlocks loop.getHeader,
      edge.1 ∈ outsideStates provider.controlFlow provider.graph loop.contains loop.getHeader predBB

/-- An edge to the header of a loop from the end of one of its blocks. -/
def IsBackEdge (loop : MachineLoop) (edge : GraphEdge) : Prop :=
  edge.2 ∈ provider.graph.getInStates loop.getHeader ∧
    ∃ predBB ∈ provider.controlFlow.getNonEmptyPredecessorBasicBlocks loop.getHeader,
      edge.1 ∈ withinStates provider.controlFlow provider.graph loop.contains loop.getHeader predBB

instance (loop : MachineLoop) (edge : GraphEdge) : Decidable (provider.IsEntryEdge loop edge) :=
  inferInstanceAs (Decidable (_ ∧ _))

instance (loop : MachineLoop) (edge : GraphEdge) : Decidable (provider.IsBackEdge loop edge) :=
  inferInstanceAs (Decidable (_ ∧ _))

/-- The entries of a loop in a context, and the back edges that are taken in it. -/
def loopUse (loop : MachineLoop) (ctx : Context) (edge : GraphEdge) : Option (Use GraphEdge) :=
  if provider.cleanedContextOf edge.2 ≠ ctx then none
  else if provider.IsBackEdge loop edge then some (.use edge)
  else if provider.IsEntryEdge loop edge then some .entry
  else none

/-- The iteration of the state that an edge leaves. -/
def iteration? (loop : MachineLoop) (edge : GraphEdge) : Option ℕ :=
  (provider.graph.getContextOfState edge.1).bind fun context =>
    context.getTokenList.reverse.findSome? (PartitionToken.iterationIn loop)

/-- The entries of a loop in a context, and the iterations that are ended in it. -/
def iterationUse (loop : MachineLoop) (ctx : Context) (edge : GraphEdge) : Option (Use ℕ) :=
  if provider.cleanedContextOf edge.2 ≠ ctx then none
  else if provider.IsBackEdge loop edge then (provider.iteration? loop edge).map .use
  else if provider.IsEntryEdge loop edge then some .entry
  else none

/-- A run of the program. -/
structure ProgramRun (path : List GraphEdge) : Prop where
  walk : provider.graph.getGraph.Walk 0 path 0
  once : ∃ edge rest, path = edge :: rest ∧ edge.2 ≠ 0 ∧ ∀ edge' ∈ rest, edge'.1 ≠ 0
  nested : Nested provider.graph [] path
  bounded : ∀ loop ∈ provider.loopBoundInfo.getAllLoops, ∀ ctx loopBound,
    provider.loopBoundInfo.getUpperLoopBound loop ctx = some loopBound →
    Allowed (AtMost loopBound.toNat) none (path.filterMap (provider.loopUse loop ctx))
  peeled : 0 < provider.loopPeel.toNat → ∀ loop ∈ provider.loopBoundInfo.getAllLoops,
    ∀ ctx loopBound, provider.loopBoundInfo.getUpperLoopBound loop ctx = some loopBound →
    Allowed (InOrder loopBound.toNat provider.loopPeel.toNat) none
      (path.filterMap (provider.iterationUse loop ctx))

end FlowConstraintProvider

end Llvmta
