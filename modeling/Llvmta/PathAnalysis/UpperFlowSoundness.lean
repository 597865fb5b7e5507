import Llvmta.PathAnalysis.ProgramRuns

/-!
# The upper flow constraints hold on every run

The value of a constraint on a run is a sum over the edges of the run. For the constraints
of a loop the edges count what the entries and the back edges of the loop are worth, and
these are bounded for each entry.
-/

namespace Llvmta

open Checked PerEntry

section Terms

variable {G : Graph} {edges path : List GraphEdge} {edge : GraphEdge} {c : ℤ} {v : ℕ}

theorem value_taken_terms (hedges : edges.Nodup) :
    value (taken edge) (timesTakenTerms c edges) = if edge ∈ edges then c else 0 := by
  induction edges with
  | nil => rfl
  | cons e edges ih =>
    obtain ⟨hnotin, hnodup⟩ := List.nodup_cons.mp hedges
    change value (taken edge) ((.getEdgeVar .timesTaken e, c) :: timesTakenTerms c edges) = _
    rw [value_cons, ih hnodup]
    by_cases he : edge = e
    · subst he
      simp [taken, hnotin]
    · simp [taken, Variable.getEdgeVar, he, Ne.symm he]

theorem sum_ite (p : GraphEdge → Prop) [DecidablePred p] (path : List GraphEdge) :
    (path.map fun e => if p e then c else 0).sum = path.countP p * c := by
  induction path with
  | nil => simp
  | cons e path ih =>
    rw [List.map_cons, List.sum_cons, ih, List.countP_cons]
    by_cases hp : p e
    · simp [hp]
      ring
    · simp [hp]

/-- Along a path a set of edges counts the steps that take one of them. -/
theorem value_terms (hedges : edges.Nodup) :
    value (timesTaken path) (timesTakenTerms c edges) = path.countP (· ∈ edges) * c := by
  rw [value_timesTaken, ← sum_ite]
  congr 1
  apply List.map_congr_left
  intro e _
  exact value_taken_terms hedges

theorem edgesTo_nodup : (edgesTo G v).Nodup := by
  have hnodup : (G.getPredecessors v).Nodup := (G.sorted_predecessors v).imp fun h => ne_of_lt h
  exact hnodup.map fun _ _ h => (Prod.mk.inj h).1

theorem edgesFrom_nodup : (edgesFrom G v).Nodup := by
  have hnodup : (G.getSuccessors v).Nodup := (G.sorted_successors v).imp fun h => ne_of_lt h
  exact hnodup.map fun _ _ h => (Prod.mk.inj h).2

theorem mem_edgesTo : edge ∈ edgesTo G v ↔ G.hasEdge edge ∧ edge.2 = v := by
  rw [edgesTo, List.mem_map]
  constructor
  · rintro ⟨p, hp, rfl⟩
    exact ⟨Graph.mem_getPredecessors.mp hp, rfl⟩
  · rintro ⟨hedge, rfl⟩
    exact ⟨edge.1, Graph.mem_getPredecessors.mpr hedge, rfl⟩

theorem mem_edgesFrom : edge ∈ edgesFrom G v ↔ G.hasEdge edge ∧ edge.1 = v := by
  rw [edgesFrom, List.mem_map]
  constructor
  · rintro ⟨q, hq, rfl⟩
    exact ⟨hq, rfl⟩
  · rintro ⟨hedge, rfl⟩
    exact ⟨edge.2, hedge, rfl⟩

theorem flatMap_edgesTo_nodup {vertices : List ℕ} (h : vertices.Nodup) :
    (vertices.flatMap (edgesTo G)).Nodup := by
  rw [List.nodup_flatMap]
  constructor
  · exact fun _ _ => edgesTo_nodup
  · apply h.imp
    intro v w hne edge hv hw
    exact hne ((mem_edgesTo.mp hv).2.symm.trans (mem_edgesTo.mp hw).2)

theorem flatMap_edgesFrom_nodup {vertices : List ℕ} (h : vertices.Nodup) :
    (vertices.flatMap (edgesFrom G)).Nodup := by
  rw [List.nodup_flatMap]
  constructor
  · exact fun _ _ => edgesFrom_nodup
  · apply h.imp
    intro v w hne edge hv hw
    exact hne ((mem_edgesFrom.mp hv).2.symm.trans (mem_edgesFrom.mp hw).2)

end Terms

namespace FlowConstraintProvider

variable {provider : FlowConstraintProvider} {path : List GraphEdge}

section Flow

/-- A vertex is left as often as it is reached. -/
theorem flowConstraint_satisfied (hmode : provider.isGeneralMode = false)
    (hrun : provider.ProgramRun path) (vertex : ℕ) :
    (provider.flowConstraint vertex).Satisfied (timesTaken path) := by
  have hin : path.countP (· ∈ edgesTo provider.graph.getGraph vertex) =
      path.countP (·.2 = vertex) := by
    apply List.countP_congr
    intro edge hedge
    simp [mem_edgesTo, hrun.walk.hasEdge edge hedge]
  have hout : path.countP (· ∈ edgesFrom provider.graph.getGraph vertex) =
      path.countP (·.1 = vertex) := by
    apply List.countP_congr
    intro edge hedge
    simp [mem_edgesFrom, hrun.walk.hasEdge edge hedge]
  have hcount := hrun.walk.count_eq vertex
  change value (timesTaken path) (_ ++ _) = 0
  rw [if_neg (by rw [hmode]; exact Bool.false_ne_true), List.append_nil, value_append,
    value_terms edgesTo_nodup, value_terms edgesFrom_nodup, hin, hout]
  omega

theorem startConstraints_satisfied (hrun : provider.ProgramRun path) {constr : GraphConstraint}
    (h : constr ∈ provider.runStartConstraints) : constr.Satisfied (timesTaken path) := by
  obtain ⟨edge, rest, rfl, hedge, hrest⟩ := hrun.once
  obtain ⟨hsource, hin, _⟩ := hrun.walk
  have hnodup : ((edgesFrom provider.graph.getGraph 0).filter fun edge =>
      decide (edge.2 ≠ 0)).Nodup := edgesFrom_nodup.filter _
  rcases List.mem_cons.mp h with rfl | h
  · change value _ _ = 1
    rw [value_terms hnodup, List.countP_cons_of_pos]
    · have hzero : rest.countP (· ∈ (edgesFrom provider.graph.getGraph 0).filter fun edge =>
          decide (edge.2 ≠ 0)) = 0 := by
        rw [List.countP_eq_zero]
        intro e he hmem
        have hmem' := (List.mem_filter.mp (of_decide_eq_true hmem)).1
        exact hrest e he (mem_edgesFrom.mp hmem').2
      rw [hzero]
      rfl
    · simpa [mem_edgesFrom, hsource, hedge] using hin
  · rcases List.mem_singleton.mp h with rfl
    change value _ _ = 0
    rw [value_terms (List.nodup_singleton _)]
    have hzero : (edge :: rest).countP (· ∈ [((0 : ℕ), (0 : ℕ))]) = 0 := by
      rw [List.countP_eq_zero]
      intro e he hmem
      have heq : e = (0, 0) := by simpa using hmem
      rcases List.mem_cons.mp he with rfl | he
      · exact hedge (by rw [heq])
      · exact hrest e he (by rw [heq])
    rw [hzero]
    rfl

end Flow

section Calls

theorem callEdges_nodup (cs : CallSite) : (provider.callEdges cs).Nodup :=
  flatMap_edgesFrom_nodup (provider.graph.callStates_nodup cs)

theorem returnEdges_nodup (cs : CallSite) : (provider.returnEdges cs).Nodup :=
  flatMap_edgesTo_nodup (provider.graph.returnStates_nodup cs)

theorem callsMinusReturns_satisfied (hrun : provider.ProgramRun path) (cs : CallSite) :
    value (timesTaken path) (provider.callsMinusReturns cs) = 0 := by
  have hcalls : path.countP (· ∈ provider.callEdges cs) =
      path.countP (·.1 ∈ provider.graph.getCallStates cs) := by
    apply List.countP_congr
    intro edge hedge
    simp [callEdges, mem_edgesFrom, hrun.walk.hasEdge edge hedge]
  have hreturns : path.countP (· ∈ provider.returnEdges cs) =
      path.countP (·.2 ∈ provider.graph.getReturnStates cs) := by
    apply List.countP_congr
    intro edge hedge
    simp [returnEdges, mem_edgesTo, hrun.walk.hasEdge edge hedge]
  have hcount := hrun.nested.count_eq cs
  rw [callsMinusReturns, value_append, value_terms (callEdges_nodup cs),
    value_terms (returnEdges_nodup cs), hcalls, hreturns]
  simp only [List.count_nil, Nat.add_zero] at hcount
  omega

end Calls

section Loops

variable {loop : MachineLoop} {ctx : Context} {states : PredecessorStates} {edge e : GraphEdge}
  {loopBound : BitVec 32} {found found' : LoopEdges} {upper : Bool}

/-- No edge both enters the loop and is a back edge of it. -/
theorem not_isEntryEdge (h : provider.IsBackEdge loop edge) : ¬provider.IsEntryEdge loop edge := by
  obtain ⟨_, predBB, _, hwithin⟩ := h
  rintro ⟨_, predBB', _, houtside⟩
  unfold withinStates at hwithin
  unfold outsideStates at houtside
  split_ifs at hwithin with _ hcontains
  · split_ifs at houtside with _ hcontains'
    · exact nomatch houtside
    · exact hcontains' (provider.graph.outStates_block hwithin houtside ▸ hcontains)
    · obtain ⟨cs, _, hcall⟩ := List.mem_flatMap.mp houtside
      exact provider.graph.callStates_outStates hcall hwithin
  all_goals exact nomatch hwithin

theorem findSome?_of_iterationOf {loopPeel : BitVec 32} {tokens : List PartitionToken} {i : ℕ}
    (h : iterationOf loopPeel loop tokens = .ok i) :
    tokens.findSome? (PartitionToken.iterationIn loop) = some i := by
  induction tokens with
  | nil => cases h
  | cons token tokens ih =>
    rw [List.findSome?_cons]
    cases token with
    | loopPeel peeled backedges taken =>
      rw [iterationOf] at h
      rw [PartitionToken.iterationIn]
      split_ifs at h ⊢ with hblocks
      · obtain ⟨_, _, h⟩ := bind_eq_ok.mp h
        cases h
        rfl
      · exact ih h
    | loopIter iterated backedges taken =>
      rw [iterationOf] at h
      rw [PartitionToken.iterationIn]
      split_ifs at h ⊢ with hblocks
      · obtain ⟨_, _, h⟩ := bind_eq_ok.mp h
        cases h
        rfl
      · exact ih h
    | none => cases h
    | ifOutcome => cases h
    | callSite => cases h
    | funCallee => cases h

/-- The back edges that end an iteration. -/
def backedgesOf (found : LoopEdges) (i : ℕ) : List GraphEdge := found.iter2backedges[i]?.getD []

theorem mem_insertEdge {edges : List GraphEdge} : e ∈ insertEdge edges edge ↔ e ∈ edges ∨ edge = e := by
  unfold insertEdge
  split_ifs with h
  · constructor
    · exact .inl
    · rintro (hmem | rfl)
      · exact hmem
      · exact h
  · rw [List.mem_append, List.mem_singleton, eq_comm]

theorem insertEdge_nodup {edges : List GraphEdge} (h : edges.Nodup) :
    (insertEdge edges edge).Nodup := by
  unfold insertEdge
  split_ifs with hmem
  · exact h
  · exact List.nodup_append.mpr ⟨h, List.nodup_singleton _, fun a ha b hb heq => by
      rw [List.mem_singleton] at hb
      exact hmem (hb ▸ heq ▸ ha)⟩

theorem visitBackedge_spec (h : provider.visitBackedge loop found edge = .ok found') :
    found'.loopVariables = found.loopVariables ∧
    (∀ i, (backedgesOf found i).Nodup → (backedgesOf found' i).Nodup) ∧
    ∀ i e, e ∈ backedgesOf found' i ↔
      e ∈ backedgesOf found i ∨ edge = e ∧ provider.iteration? loop edge = some i := by
  unfold visitBackedge at h
  unfold iteration?
  cases hcontext : provider.graph.getContextOfState edge.1 with
  | none =>
    rw [hcontext] at h
    cases h
    simp [backedgesOf]
  | some predCtx =>
    rw [hcontext] at h
    obtain ⟨iteration, hiteration, h⟩ := bind_eq_ok.mp h
    obtain ⟨backedges, hread, h⟩ := bind_eq_ok.mp h
    obtain ⟨iter2backedges, hwrite, h⟩ := bind_eq_ok.mp h
    cases h
    have hfound := findSome?_of_iterationOf hiteration
    have hold : backedgesOf found iteration = backedges := by
      rw [backedgesOf, getElem?_of_read hread, Option.getD_some]
    have hnew : ∀ i, iter2backedges[i]?.getD [] =
        if iteration = i then insertEdge backedges edge else backedgesOf found i := by
      intro i
      rw [getElem?_of_write hwrite]
      split_ifs <;> rfl
    refine ⟨rfl, fun i hnodup => ?_, fun i e => ?_⟩
    · rw [backedgesOf, hnew]
      split_ifs with hi
      · exact insertEdge_nodup (by rw [← hold, hi]; exact hnodup)
      · exact hnodup
    · rw [backedgesOf, hnew, Option.bind_some, hfound, Option.some.injEq]
      split_ifs with hi
      · rw [mem_insertEdge, ← hold, hi]
        simp
      · simp [hi]

/-- What an edge counts in the constraint of a loop. -/
def coefficient (states : PredecessorStates) (loopBound : BitVec 32) (edge : GraphEdge) : ℤ :=
  if edge.1 ∈ states.outStatesOutsideScope then loopBound.toNat else -1

theorem visitEdge_spec (hmode : provider.isGeneralMode = false)
    (h : provider.visitEdge upper loop states loopBound found edge = .ok found') :
    (edge.1 ∉ states.outStatesOutsideScope → edge.1 ∈ states.outStatesWithinScope) ∧
    (∀ e, value (taken e) found'.loopVariables = value (taken e) found.loopVariables +
      if edge = e then coefficient states loopBound edge else 0) ∧
    (∀ i, (backedgesOf found i).Nodup → (backedgesOf found' i).Nodup) ∧
    (upper = true → 0 < provider.loopPeel.toNat → ∀ i e, e ∈ backedgesOf found' i ↔
      e ∈ backedgesOf found i ∨ edge = e ∧ edge.1 ∉ states.outStatesOutsideScope ∧
        provider.iteration? loop edge = some i) := by
  have hterm : ∀ c, ∀ e, value (taken e) (timesTakenTerms c [edge]) = if edge = e then c else 0 := by
    intro c e
    rw [value_taken_terms (List.nodup_singleton _)]
    simp [eq_comm]
  unfold visitEdge at h
  unfold coefficient
  by_cases houtside : edge.1 ∈ states.outStatesOutsideScope
  · rw [if_pos houtside, hmode] at h
    cases h
    refine ⟨fun hnot => absurd houtside hnot, fun e => ?_, fun _ hnodup => hnodup, fun _ _ i e => ?_⟩
    · rw [value_append, hterm, if_pos houtside]
    · simp [houtside, backedgesOf]
  · rw [if_neg houtside] at h
    obtain ⟨_, hwithin, h⟩ := bind_eq_ok.mp h
    refine ⟨fun _ => of_decide_eq_true (of_assertThat hwithin), ?_⟩
    simp only [if_neg houtside, hmode, Bool.not_false, Bool.true_and] at h ⊢
    split at h
    · obtain ⟨hvariables, hnodup, hmem⟩ := visitBackedge_spec h
      refine ⟨fun e => ?_, hnodup, fun _ _ i e => ?_⟩
      · rw [hvariables, value_append, hterm]
      · rw [hmem]
        simp [houtside, backedgesOf]
    · next hcollect =>
      cases h
      refine ⟨fun e => ?_, fun _ hnodup => hnodup, fun hupper hpeel => ?_⟩
      · rw [value_append, hterm]
      · simp [hupper, hpeel] at hcollect

/-- What has been found on all edges to the header in a context. -/
structure Found (provider : FlowConstraintProvider) (loop : MachineLoop)
    (states : PredecessorStates) (loopBound : BitVec 32) (edges : List GraphEdge)
    (found : LoopEdges) : Prop where
  sides : ∀ edge ∈ edges, edge.1 ∉ states.outStatesOutsideScope →
    edge.1 ∈ states.outStatesWithinScope
  loopVariables : ∀ e, value (taken e) found.loopVariables =
    if e ∈ edges then coefficient states loopBound e else 0
  backedges_nodup : ∀ i, (backedgesOf found i).Nodup
  mem_backedges : 0 < provider.loopPeel.toNat → ∀ i e, e ∈ backedgesOf found i ↔
    e ∈ edges ∧ e.1 ∉ states.outStatesOutsideScope ∧ provider.iteration? loop e = some i

theorem found_of_foldlM (hmode : provider.isGeneralMode = false) {edges inEdges : List GraphEdge}
    (hedges : edges.Nodup) {n : ℕ}
    (h : edges.foldlM (provider.visitEdge true loop states loopBound)
      ⟨[], inEdges, List.replicate n [], false⟩ = .ok found) :
    Found provider loop states loopBound edges found := by
  have hempty : ∀ i, backedgesOf ⟨[], inEdges, List.replicate n [], false⟩ i = [] := by
    intro i
    rw [backedgesOf, List.getElem?_replicate]
    split_ifs <;> rfl
  constructor
  · exact foldlM_forall (fun _ _ _ hok => (visitEdge_spec hmode hok).1) h
  · intro e
    rw [foldlM_sum (F := fun found : LoopEdges => value (taken e) found.loopVariables)
      (A := fun edge => if edge = e then coefficient states loopBound edge else 0) ?_ h,
      sum_ite_eq hedges]
    · exact zero_add _
    · intro _ _ _ hok
      exact (visitEdge_spec hmode hok).2.1 e
  · intro i
    apply foldlM_invariant (H := fun found : LoopEdges => (backedgesOf found i).Nodup) _ _ h
    · intro _ _ _ _ hnodup hok
      exact (visitEdge_spec hmode hok).2.2.1 i hnodup
    · rw [hempty]
      exact List.nodup_nil
  · intro hpeel i e
    rw [foldlM_adds (H := fun found : LoopEdges => e ∈ backedgesOf found i)
      (A := fun edge => edge = e ∧ edge.1 ∉ states.outStatesOutsideScope ∧
        provider.iteration? loop edge = some i) ?_ h, hempty]
    · simp only [List.not_mem_nil, false_or]
      constructor
      · rintro ⟨edge, hmem, rfl, hback⟩
        exact ⟨hmem, hback⟩
      · exact fun hback => ⟨e, hback.1, rfl, hback.2⟩
    · intro _ _ _ hok
      exact (visitEdge_spec hmode hok).2.2.2 rfl hpeel i e

/-- The edges to the header in a context. -/
def contextEdges (provider : FlowConstraintProvider) (loop : MachineLoop) (ctx : Context) :
    List GraphEdge :=
  ((provider.graph.getInStates loop.getHeader).filter fun stateId =>
    provider.cleanedContextOf stateId = ctx).flatMap (edgesTo provider.graph.getGraph)

theorem contextEdges_nodup : (provider.contextEdges loop ctx).Nodup :=
  flatMap_edgesTo_nodup ((provider.graph.inStates_nodup loop.getHeader).filter _)

theorem mem_contextEdges (hedge : provider.graph.getGraph.hasEdge edge) :
    edge ∈ provider.contextEdges loop ctx ↔
      edge.2 ∈ provider.graph.getInStates loop.getHeader ∧ provider.cleanedContextOf edge.2 = ctx := by
  simp [contextEdges, mem_edgesTo, hedge]

section Context

variable (hstates : predecessorStates provider.controlFlow provider.graph loop.contains
    loop.getHeader = .ok states)

include hstates

theorem isEntryEdge_iff (hheader : edge.2 ∈ provider.graph.getInStates loop.getHeader) :
    provider.IsEntryEdge loop edge ↔ edge.1 ∈ states.outStatesOutsideScope := by
  rw [mem_outStatesOutsideScope hstates]
  exact and_iff_right hheader

theorem isBackEdge_iff (hheader : edge.2 ∈ provider.graph.getInStates loop.getHeader)
    (hsides : edge.1 ∉ states.outStatesOutsideScope → edge.1 ∈ states.outStatesWithinScope) :
    provider.IsBackEdge loop edge ↔ edge.1 ∉ states.outStatesOutsideScope := by
  constructor
  · intro hback houtside
    exact not_isEntryEdge hback ((isEntryEdge_iff hstates hheader).mpr houtside)
  · intro houtside
    exact ⟨hheader, (mem_outStatesWithinScope hstates).mp (hsides houtside)⟩

/-- An edge counts what the entry or the back edge that it is are worth. -/
theorem value_loopVariables
    (hfound : Found provider loop states loopBound (provider.contextEdges loop ctx) found)
    (hedge : provider.graph.getGraph.hasEdge edge) :
    value (taken edge) found.loopVariables =
      eventWorth loopBound.toNat (fun _ => -1) (provider.loopUse loop ctx edge) := by
  rw [hfound.loopVariables, loopUse]
  by_cases hctx : provider.cleanedContextOf edge.2 = ctx
  · rw [if_neg (not_not.mpr hctx)]
    by_cases hheader : edge.2 ∈ provider.graph.getInStates loop.getHeader
    · have hmem := (mem_contextEdges hedge).mpr ⟨hheader, hctx⟩
      have hback := isBackEdge_iff hstates hheader (hfound.sides edge hmem)
      rw [if_pos hmem, coefficient]
      by_cases houtside : edge.1 ∈ states.outStatesOutsideScope
      · rw [if_pos houtside, if_neg (fun h => hback.mp h houtside),
          if_pos ((isEntryEdge_iff hstates hheader).mpr houtside)]
        rfl
      · rw [if_neg houtside, if_pos (hback.mpr houtside)]
        rfl
    · rw [if_neg fun hmem => hheader ((mem_contextEdges hedge).mp hmem).1,
        if_neg fun h => hheader h.1, if_neg fun h => hheader h.1]
      rfl
  · rw [if_pos hctx, if_neg fun hmem => hctx ((mem_contextEdges hedge).mp hmem).2]
    rfl

/-- The back edges of an iteration are those that end it. -/
theorem mem_backedges_iff
    (hfound : Found provider loop states loopBound (provider.contextEdges loop ctx) found)
    (hpeel : 0 < provider.loopPeel.toNat) (hedge : provider.graph.getGraph.hasEdge edge) (i : ℕ) :
    edge ∈ backedgesOf found i ↔ provider.iterationUse loop ctx edge = some (.use i) := by
  rw [hfound.mem_backedges hpeel, iterationUse]
  by_cases hctx : provider.cleanedContextOf edge.2 = ctx
  · rw [if_neg (not_not.mpr hctx)]
    by_cases hheader : edge.2 ∈ provider.graph.getInStates loop.getHeader
    · have hmem := (mem_contextEdges hedge).mpr ⟨hheader, hctx⟩
      have hback := isBackEdge_iff hstates hheader (hfound.sides edge hmem)
      by_cases houtside : edge.1 ∈ states.outStatesOutsideScope
      · rw [if_neg (fun h => hback.mp h houtside),
          if_pos ((isEntryEdge_iff hstates hheader).mpr houtside)]
        simp [houtside]
      · rw [if_pos (hback.mpr houtside)]
        simp [houtside, hmem]
    · have hnotmem : edge ∉ provider.contextEdges loop ctx :=
        fun hmem => hheader ((mem_contextEdges hedge).mp hmem).1
      rw [if_neg fun h => hheader h.1, if_neg fun h => hheader h.1]
      simp [hnotmem]
  · have hnotmem : edge ∉ provider.contextEdges loop ctx :=
      fun hmem => hctx ((mem_contextEdges hedge).mp hmem).2
    rw [if_pos hctx]
    simp [hnotmem]

/-- The entries allow for the back edges that are taken. -/
theorem loopConstraint_satisfied
    (hfound : Found provider loop states loopBound (provider.contextEdges loop ctx) found)
    (hpath : ∀ e ∈ path, provider.graph.getGraph.hasEdge e)
    (hbounded : Allowed (AtMost loopBound.toNat) none (path.filterMap (provider.loopUse loop ctx))) :
    (loopConstraint true found.loopVariables).Satisfied (timesTaken path) := by
  have hsum : value (timesTaken path) found.loopVariables =
      loopBound.toNat * entries (path.filterMap (provider.loopUse loop ctx)) +
        worth (fun _ => -1) (path.filterMap (provider.loopUse loop ctx)) := by
    rw [value_timesTaken, ← sum_eventWorth]
    congr 1
    apply List.map_congr_left
    intro e he
    exact value_loopVariables hstates hfound (hpath e he)
  have hle := worth_atMost_le hbounded
  change 0 ≤ value (timesTaken path) found.loopVariables
  rw [hsum, worth_neg]
  omega

theorem extendedLoopConstraint_satisfied
    (hfound : Found provider loop states loopBound (provider.contextEdges loop ctx) found)
    (hpath : ∀ e ∈ path, provider.graph.getGraph.hasEdge e) {i : ℕ}
    (hi : i < provider.loopPeel.toNat) (hbound : i < loopBound.toNat)
    (hpeeled : Allowed (InOrder loopBound.toNat provider.loopPeel.toNat) none
      (path.filterMap (provider.iterationUse loop ctx))) :
    (provider.extendedLoopConstraint loopBound i (backedgesOf found i)
      (backedgesOf found (i + 1))).Satisfied (timesTaken path) := by
  have hpeel : 0 < provider.loopPeel.toNat := Nat.zero_lt_of_lt hi
  let coeff : ℤ :=
    if i = provider.loopPeel.toNat - 1 then (loopBound - provider.loopPeel).toNat else 1
  have hsum : value (timesTaken path) (provider.extendedLoopConstraint loopBound i
      (backedgesOf found i) (backedgesOf found (i + 1))).vector =
      -worth (fun j => (if j = i + 1 then 1 else 0) + if j = i then -coeff else 0)
        (path.filterMap (provider.iterationUse loop ctx)) := by
    rw [← worth_neg, ← zero_add (worth _ _), ← zero_mul ((entries _ : ℕ) : ℤ), ← sum_eventWorth,
      value_timesTaken]
    congr 1
    apply List.map_congr_left
    intro e he
    change value (taken e) (timesTakenTerms coeff (backedgesOf found i) ++
      timesTakenTerms (-1) (backedgesOf found (i + 1))) = _
    rw [value_append, value_taken_terms (hfound.backedges_nodup i),
      value_taken_terms (hfound.backedges_nodup (i + 1))]
    simp only [mem_backedges_iff hstates hfound hpeel (hpath e he)]
    cases hevent : provider.iterationUse loop ctx e with
    | none => simp [eventWorth]
    | some event =>
      cases event with
      | entry => simp [eventWorth]
      | use j =>
        simp only [eventWorth, Option.some.injEq, Use.use.injEq]
        split_ifs <;> omega
  change 0 ≤ value (timesTaken path) _
  rw [hsum]
  apply neg_nonneg.mpr
  by_cases hlast : i = provider.loopPeel.toNat - 1
  · have hlen : provider.loopPeel.toNat = i + 1 := by omega
    have hcoeff : coeff = ((loopBound.toNat - (i + 1) : ℕ) : ℤ) := by
      have hle : provider.loopPeel ≤ loopBound := by
        rw [BitVec.le_def]
        omega
      simp only [coeff, if_pos hlast]
      rw [BitVec.toNat_sub_of_le hle, hlen]
    rw [hlen] at hpeeled
    rw [hcoeff]
    exact worth_last_le hpeeled hbound
  · have hcoeff : coeff = 1 := if_neg hlast
    rw [hcoeff]
    exact worth_peeled_le hpeeled (by omega)

end Context

/-- The constraints of a list hold on a path. -/
def AllSatisfied (path : List GraphEdge) (constraints : List GraphConstraint) : Prop :=
  ∀ constr ∈ constraints, constr.Satisfied (timesTaken path)

theorem AllSatisfied.append {constraints constraints' : List GraphConstraint}
    (h : AllSatisfied path constraints) (h' : AllSatisfied path constraints') :
    AllSatisfied path (constraints ++ constraints') := by
  intro constr hmem
  exact (List.mem_append.mp hmem).elim (h constr) (h' constr)

theorem AllSatisfied.singleton {constr : GraphConstraint}
    (h : constr.Satisfied (timesTaken path)) : AllSatisfied path [constr] := by
  intro constr' hmem
  rw [List.mem_singleton.mp hmem]
  exact h

theorem programRunConstraints_satisfied
    (hstates : predecessorStates provider.controlFlow provider.graph loop.contains
      loop.getHeader = .ok states)
    (hfound : Found provider loop states loopBound (provider.contextEdges loop ctx) found)
    (hrun : provider.ProgramRun path) (hloop : loop ∈ provider.loopBoundInfo.getAllLoops)
    (hbound : provider.loopBoundInfo.getUpperLoopBound loop ctx = some loopBound)
    {constraints constraints' : List GraphConstraint} (hconstraints : AllSatisfied path constraints)
    (h : provider.programRunConstraints true loopBound found constraints = .ok constraints') :
    AllSatisfied path constraints' := by
  have hpath := hrun.walk.hasEdge
  have hfirst : AllSatisfied path (constraints ++ [loopConstraint true found.loopVariables]) :=
    hconstraints.append (.singleton
      (loopConstraint_satisfied hstates hfound hpath (hrun.bounded loop hloop ctx loopBound hbound)))
  unfold programRunConstraints at h
  dsimp only at h
  split at h
  · next hextended =>
    have hpeel : 0 < provider.loopPeel.toNat := by
      simp only [Bool.true_and, Bool.and_eq_true, decide_eq_true_eq] at hextended
      exact hextended.1
    apply foldlM_invariant (H := AllSatisfied path) _ hfirst h
    intro constraints i constraints' hi hsatisfied hok
    unfold addExtendedLoopConstraint at hok
    split_ifs at hok with hle
    · cases hok
      exact hsatisfied
    · obtain ⟨backedges, hread, hok⟩ := bind_eq_ok.mp hok
      obtain ⟨next, hread', hok⟩ := bind_eq_ok.mp hok
      cases hok
      have hbackedges : backedges = backedgesOf found i := by
        rw [backedgesOf, getElem?_of_read hread, Option.getD_some]
      have hnext : next = backedgesOf found (i + 1) := by
        rw [backedgesOf, getElem?_of_read hread', Option.getD_some]
      rw [hbackedges, hnext]
      exact hsatisfied.append (.singleton (extendedLoopConstraint_satisfied hstates hfound hpath
        (List.mem_range.mp hi) (not_le.mp hle) (hrun.peeled hpeel loop hloop ctx loopBound hbound)))
  · cases h
    exact hfirst

theorem visitLoop_satisfied (hmode : provider.isGeneralMode = false)
    (hrun : provider.ProgramRun path) (hloop : loop ∈ provider.loopBoundInfo.getAllLoops)
    {built built' : EdgeCaches × List GraphConstraint} (hbuilt : AllSatisfied path built.2)
    (h : provider.visitLoop true built loop = .ok built') : AllSatisfied path built'.2 := by
  unfold visitLoop at h
  split_ifs at h with hunreachable
  · cases h
    exact hbuilt
  · obtain ⟨states, hstates, h⟩ := bind_eq_ok.mp h
    obtain ⟨contexts, hcontexts, h⟩ := bind_eq_ok.mp h
    cases h
    apply foldlM_invariant (H := fun contexts : LoopContexts =>
      AllSatisfied path contexts.loopConstraints) _ hbuilt hcontexts
    intro contexts ctxMapElement contexts' hmem hsatisfied hok
    obtain ⟨ctx, _, rfl⟩ := List.mem_map.mp hmem
    unfold visitContext at hok
    cases hbound : provider.getLoopBound true loop ctx with
    | none =>
      rw [hbound] at hok
      cases hok
      exact hsatisfied
    | some loopBound =>
      rw [hbound] at hok
      obtain ⟨found, hfold, hok⟩ := bind_eq_ok.mp hok
      rw [hmode] at hok
      obtain ⟨constraints, hconstraints, hok⟩ := bind_eq_ok.mp hok
      cases hok
      exact programRunConstraints_satisfied hstates
        (found_of_foldlM hmode contextEdges_nodup hfold) hrun hloop hbound hsatisfied hconstraints

end Loops

theorem visitCallSite_satisfied (hmode : provider.isGeneralMode = false)
    (hrun : provider.ProgramRun path) {bb : MachineBasicBlock} {callsite : CallSite}
    {built built' : EdgeCaches × List GraphConstraint} (hbuilt : AllSatisfied path built.2)
    (h : provider.visitCallSite bb built callsite = .ok built') : AllSatisfied path built'.2 := by
  unfold visitCallSite at h
  rw [hmode] at h
  cases h
  exact hbuilt.append (.singleton (callsMinusReturns_satisfied hrun callsite))

/-- The constraints with upper loop bounds hold on every run of the program. -/
theorem buildUpperConstraints_satisfied (provider : FlowConstraintProvider)
    (hmode : provider.programRunMode = true) {constraints : List GraphConstraint}
    (h : provider.buildUpperConstraints = .ok constraints) {path : List GraphEdge}
    (hrun : provider.ProgramRun path) : AllSatisfied path constraints := by
  have hgeneral : provider.isGeneralMode = false := by
    rw [isGeneralMode, hmode]
    rfl
  obtain ⟨⟨caches, loops⟩, hloops, h⟩ := bind_eq_ok.mp h
  obtain ⟨⟨_, calls⟩, hcalls, h⟩ := bind_eq_ok.mp h
  cases h
  have hflow : AllSatisfied path provider.buildInFlowEqualsOutFlowConstraints := by
    intro constr hmem
    obtain ⟨vertex, _, hvertex⟩ := List.mem_flatMap.mp hmem
    rw [hgeneral] at hvertex
    rw [List.mem_singleton.mp hvertex]
    exact flowConstraint_satisfied hgeneral hrun vertex
  have hloops' : AllSatisfied path loops := by
    apply foldlM_invariant (H := fun built : EdgeCaches × List GraphConstraint =>
      AllSatisfied path built.2) _ _ hloops
    · intro built loop built' hloop hsatisfied hok
      exact visitLoop_satisfied hgeneral hrun hloop hsatisfied hok
    · exact fun _ hmem => nomatch hmem
  have hcalls' : AllSatisfied path calls := by
    apply foldlM_invariant (H := fun built : EdgeCaches × List GraphConstraint =>
      AllSatisfied path built.2) _ _ hcalls
    · intro built bb built' _ hsatisfied hok
      apply foldlM_invariant (H := fun built : EdgeCaches × List GraphConstraint =>
        AllSatisfied path built.2) _ hsatisfied hok
      exact fun _ _ _ _ hbuilt hcall => visitCallSite_satisfied hgeneral hrun hbuilt hcall
    · exact fun _ hmem => nomatch hmem
  have hstart : AllSatisfied path provider.buildStartConstraint := by
    intro constr hmem
    unfold buildStartConstraint at hmem
    rw [hgeneral, if_neg Bool.false_ne_true, List.append_nil] at hmem
    split_ifs at hmem
    · exact startConstraints_satisfied hrun hmem
    · exact nomatch hmem
  exact ((hflow.append hloops').append hcalls').append hstart

end FlowConstraintProvider

section Examples

/-- A block that is its own loop, between two others. -/
def selfLoopBlock : MachineLoop := ⟨1, [1]⟩

def peeledContext : Context := ⟨[.funCallee 0, .loopPeel selfLoopBlock [(1, 1)] 0]⟩

def iteratedContext : Context := ⟨[.funCallee 0, .loopIter selfLoopBlock [(1, 1)] 1]⟩

/-- The loop has the states 3 and 4 in its first iteration, and 5 and 6 in the later ones. -/
def selfLoopStates : StateGraph where
  getGraph := .ofEdges [(0, 0), (0, 1), (1, 2), (2, 3), (3, 4), (4, 5), (4, 7), (5, 6), (6, 5),
    (6, 7), (7, 8), (8, 0)]
  getInStates
    | 0 => [1]
    | 1 => [3, 5]
    | 2 => [7]
    | _ => []
  getOutStates
    | 0 => [2]
    | 1 => [4, 6]
    | 2 => [8]
    | _ => []
  getCallStates _ := []
  getReturnStates _ := []
  getContextOfState stateId :=
    if stateId = 3 ∨ stateId = 4 then some peeledContext
    else if stateId = 5 ∨ stateId = 6 then some iteratedContext
    else some ⟨[.funCallee 0]⟩
  inStates_nodup bb := by split <;> decide
  callStates_nodup _ := List.nodup_nil
  returnStates_nodup _ := List.nodup_nil
  outStates_block := by
    intro bb bb' s h h'
    split at h <;> split at h' <;> simp_all
  callStates_outStates h := nomatch h

/-- The loop takes its back edge at most three times. -/
def selfLoopProvider : FlowConstraintProvider where
  graph := selfLoopStates
  controlFlow :=
    { machineBasicBlocks := [0, 1, 2]
      getParent := fun _ => 0
      getNonEmptyPredecessorBasicBlocks := fun bb =>
        if bb = 1 then [0, 1] else if bb = 2 then [1] else []
      getNonEmptySuccessorBasicBlocks := fun bb =>
        if bb = 0 then [1] else if bb = 1 then [1, 2] else []
      getCallSitesInMBB := fun _ => []
      getPotentialCallees := fun _ => []
      getCallSites := fun _ => [] }
  loopBoundInfo :=
    { getAllLoops := [selfLoopBlock]
      getUpperLoopBound := fun _ ctx => if ctx = ⟨[.funCallee 0]⟩ then some 3 else none
      getLowerLoopBound := fun _ _ => none }
  loopPeel := 1
  programRunMode := true
  allowSeveralRuns := false
  loopGetInnerEdgesMethod := .insideProgramRuns
  callSiteGetInnerEdgesMethod := .insideProgramRuns

def threeBackEdges : List GraphEdge :=
  [(0, 1), (1, 2), (2, 3), (3, 4), (4, 5), (5, 6), (6, 5), (5, 6), (6, 5), (5, 6), (6, 7), (7, 8),
    (8, 0)]

theorem selfLoop_bound {loop : MachineLoop} {ctx : Context} {loopBound : BitVec 32}
    (h : selfLoopProvider.loopBoundInfo.getUpperLoopBound loop ctx = some loopBound) :
    ctx = ⟨[.funCallee 0]⟩ ∧ loopBound = 3 := by
  change (if ctx = ⟨[.funCallee 0]⟩ then some 3 else none) = some loopBound at h
  split_ifs at h with hctx
  exact ⟨hctx, (Option.some.inj h).symm⟩

theorem threeBackEdges_run : selfLoopProvider.ProgramRun threeBackEdges where
  walk := by decide
  once := ⟨(0, 1), _, rfl, by decide, by decide⟩
  nested := .of_no_calls (fun _ => rfl) (fun _ => rfl) threeBackEdges
  bounded := by
    intro loop hloop ctx loopBound hbound
    rw [List.mem_singleton.mp hloop, (selfLoop_bound hbound).1, (selfLoop_bound hbound).2]
    decide +kernel
  peeled := by
    intro _ loop hloop ctx loopBound hbound
    rw [List.mem_singleton.mp hloop, (selfLoop_bound hbound).1, (selfLoop_bound hbound).2]
    decide +kernel

end Examples

theorem buildUpperConstraints_satisfied_selfLoop :
    ∃ constraints, selfLoopProvider.buildUpperConstraints = .ok constraints ∧
      FlowConstraintProvider.AllSatisfied threeBackEdges constraints :=
  ⟨_, rfl, selfLoopProvider.buildUpperConstraints_satisfied rfl rfl threeBackEdges_run⟩

end Llvmta
