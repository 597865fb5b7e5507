import Llvmta.AnalysisFramework.CallGraph
import Llvmta.Library.CheckedVector
import Mathlib.Data.Finset.Sort

/-!
# Functions that can be reached from a list of blocks

The functions that the blocks call are put onto a worklist. For each function on it, the
callees of its call sites are examined. As a call site of a function is a call that leads
to it, this examines the function itself again.
-/

namespace Llvmta

open CallGraph

section Search

variable (graph : CallGraph) (target : MachineFunctionId)

/-- The walk over directly reachable functions ends early, without a result here, at the
target. -/
def insertCallees (reachableFunctions : Finset MachineFunctionId)
    (callees : List MachineFunctionId) : Option (Finset MachineFunctionId) :=
  callees.foldlM (fun reachableFunctions currPotCallee =>
    if currPotCallee = target then none
    else some (insert currPotCallee reachableFunctions)) reachableFunctions

/-- A function on the worklist is left as soon as the target is found. -/
def pushCallees (workList : List MachineFunctionId)
    (reachableFunctions : Finset MachineFunctionId) (callees : List MachineFunctionId) :
    Option (List MachineFunctionId × Finset MachineFunctionId) :=
  callees.foldlM (fun state currPotCallee =>
    if currPotCallee = target then none
    else if currPotCallee ∈ state.2 then some state
    else some (state.1 ++ [currPotCallee], insert currPotCallee state.2))
    (workList, reachableFunctions)

def searchWorkList : (fuel : ℕ) → List MachineFunctionId → Finset MachineFunctionId →
    Except Fault Bool
  | _, [], _ => .ok false
  | 0, _ :: _, _ => .error .divergence
  | fuel + 1, currFunc :: workList, reachableFunctions =>
    match pushCallees target (currFunc :: workList) reachableFunctions
        ((graph.getCallSites currFunc).flatMap graph.getPotentialCallees) with
    | none => .ok true
    | some (workList, reachableFunctions) =>
      searchWorkList fuel workList.tail reachableFunctions

/-- Sets of functions are walked in their order. -/
def isFunctionPotentiallyReachableFrom (fuel : ℕ) (basicBlocks : List MachineBasicBlock) :
    Except Fault Bool :=
  match insertCallees target ∅ ((basicBlocks.flatMap graph.getCallSitesInMBB).flatMap
      graph.getPotentialCallees) with
  | none => .ok true
  | some reachableFunctions =>
    searchWorkList graph target fuel (reachableFunctions.sort (· ≤ ·)) reachableFunctions

end Search

section Result

variable {collector : MachineFunctionCollector} {target : MachineFunctionId}
  {basicBlocks : List MachineBasicBlock}

theorem insertCallees_eq_none {callees : List MachineFunctionId}
    {reachableFunctions : Finset MachineFunctionId} :
    insertCallees target reachableFunctions callees = none ↔ target ∈ callees := by
  induction callees generalizing reachableFunctions with
  | nil => simp [insertCallees]
  | cons currPotCallee callees ih =>
    unfold insertCallees at ih ⊢
    rw [List.foldlM_cons, List.mem_cons]
    by_cases h : currPotCallee = target
    · simp [h]
    · rw [if_neg h]
      simp [ih, Ne.symm h]

theorem mem_insertCallees {callees : List MachineFunctionId}
    {reachableFunctions reached : Finset MachineFunctionId}
    (h : insertCallees target reachableFunctions callees = some reached) :
    ∀ f, f ∈ reached ↔ f ∈ reachableFunctions ∨ f ∈ callees := by
  induction callees generalizing reachableFunctions with
  | nil =>
    cases h
    simp
  | cons currPotCallee callees ih =>
    unfold insertCallees at ih h
    rw [List.foldlM_cons] at h
    by_cases htarget : currPotCallee = target
    · simp [htarget] at h
    · rw [if_neg htarget] at h
      intro f
      rw [ih h, Finset.mem_insert, List.mem_cons]
      tauto

/-- The callees of the call sites of a function are the function itself. -/
theorem eq_of_mem_callees {f g : MachineFunctionId}
    (h : g ∈ ((recomputeCallGraph collector).getCallSites f).flatMap
      (recomputeCallGraph collector).getPotentialCallees) : g = f := by
  obtain ⟨MI, hsite, hcallee⟩ := List.mem_flatMap.mp h
  have hf := (mem_getCallSites.mp hsite).2
  have hg := (mem_getPotentialCallees.mp hcallee).2
  exact Option.some.inj (hg.symm.trans hf)

theorem pushCallees_of_forall {workList callees : List MachineFunctionId}
    {reachableFunctions : Finset MachineFunctionId}
    (h : ∀ f ∈ callees, f ≠ target ∧ f ∈ reachableFunctions) :
    pushCallees target workList reachableFunctions callees =
      some (workList, reachableFunctions) := by
  induction callees with
  | nil => rfl
  | cons currPotCallee callees ih =>
    obtain ⟨htarget, hmem⟩ := h currPotCallee (by simp)
    have hrest := ih fun f hf => h f (List.mem_cons_of_mem _ hf)
    unfold pushCallees at hrest ⊢
    rw [List.foldlM_cons, if_neg htarget, if_pos hmem]
    exact hrest

/-- The worklist only shrinks. -/
theorem searchWorkList_eq {fuel : ℕ} {workList : List MachineFunctionId}
    {reachableFunctions : Finset MachineFunctionId} (hfuel : workList.length ≤ fuel)
    (hsub : ∀ f ∈ workList, f ∈ reachableFunctions) (htarget : target ∉ reachableFunctions) :
    searchWorkList (recomputeCallGraph collector) target fuel workList reachableFunctions =
      .ok false := by
  induction workList generalizing fuel with
  | nil =>
    unfold searchWorkList
    rfl
  | cons currFunc workList ih =>
    obtain ⟨fuel, rfl⟩ : ∃ n, fuel = n + 1 := ⟨fuel - 1, by simp at hfuel; omega⟩
    have hcurr : currFunc ∈ reachableFunctions := hsub currFunc (by simp)
    have hpush : pushCallees target (currFunc :: workList) reachableFunctions
        (((recomputeCallGraph collector).getCallSites currFunc).flatMap
          (recomputeCallGraph collector).getPotentialCallees) =
        some (currFunc :: workList, reachableFunctions) := by
      apply pushCallees_of_forall
      intro f hf
      rw [eq_of_mem_callees hf]
      exact ⟨fun heq => htarget (heq ▸ hcurr), hcurr⟩
    unfold searchWorkList
    rw [hpush]
    simp only [List.length_cons] at hfuel
    exact ih (by omega) fun f hf => hsub f (List.mem_cons_of_mem _ hf)

theorem mem_calleesOf_iff {f : MachineFunctionId} :
    f ∈ (basicBlocks.flatMap (recomputeCallGraph collector).getCallSitesInMBB).flatMap
        (recomputeCallGraph collector).getPotentialCallees ↔
      ∃ bb ∈ basicBlocks, collector.CallsDirectly bb f := by
  simp only [List.mem_flatMap, mem_getCallSitesInMBB, mem_getPotentialCallees]
  constructor
  · rintro ⟨MI, ⟨bb, hbb, hMI⟩, _, hcallee⟩
    exact ⟨bb, hbb, MI, hMI, hcallee⟩
  · rintro ⟨bb, hbb, MI, hMI, hcallee⟩
    exact ⟨MI, ⟨bb, hbb, hMI⟩, ⟨bb, hMI⟩, hcallee⟩

theorem callee_mem {bb : MachineBasicBlock} {f : MachineFunctionId}
    (h : collector.CallsDirectly bb f) : f ∈ collector.getAllMachineFunctions := by
  obtain ⟨MI, -, hcallee⟩ := h
  unfold MachineFunctionCollector.callee at hcallee
  split at hcallee
  · exact collector.mem_of_Name2func hcallee
  · exact collector.mem_of_Name2func hcallee
  · cases hcallee

/-- The search terminates and finds the functions that one of the blocks calls. -/
theorem isFunctionPotentiallyReachableFrom_eq (target : MachineFunctionId)
    (basicBlocks : List MachineBasicBlock) {fuel : ℕ}
    (hfuel : collector.getAllMachineFunctions.length ≤ fuel) :
    ∃ result, isFunctionPotentiallyReachableFrom (recomputeCallGraph collector) target fuel
        basicBlocks = .ok result ∧
      (result = true ↔ ∃ bb ∈ basicBlocks, collector.CallsDirectly bb target) := by
  rw [← mem_calleesOf_iff]
  unfold isFunctionPotentiallyReachableFrom
  cases hinsert : insertCallees target ∅
      ((basicBlocks.flatMap (recomputeCallGraph collector).getCallSitesInMBB).flatMap
        (recomputeCallGraph collector).getPotentialCallees) with
  | none => exact ⟨true, rfl, by simpa using insertCallees_eq_none.mp hinsert⟩
  | some reachableFunctions =>
    have hmem := mem_insertCallees hinsert
    have htarget : target ∉
        (basicBlocks.flatMap (recomputeCallGraph collector).getCallSitesInMBB).flatMap
          (recomputeCallGraph collector).getPotentialCallees := by
      intro hcallee
      rw [insertCallees_eq_none.mpr hcallee] at hinsert
      cases hinsert
    refine ⟨false, searchWorkList_eq ?_ (fun f hf => (Finset.mem_sort _).mp hf) ?_,
      by simpa using htarget⟩
    · have hsub : reachableFunctions ⊆ collector.getAllMachineFunctions.toFinset := by
        intro f hf
        have hcallee : f ∈ (basicBlocks.flatMap _).flatMap _ :=
          ((hmem f).mp hf).resolve_left (Finset.notMem_empty f)
        obtain ⟨bb, -, hcall⟩ := mem_calleesOf_iff.mp hcallee
        exact List.mem_toFinset.mpr (callee_mem hcall)
      rw [Finset.length_sort]
      exact ((Finset.card_le_card hsub).trans (List.toFinset_card_le _)).trans hfuel
    · exact fun h => htarget (((hmem target).mp h).resolve_left (Finset.notMem_empty target))

/-- The chains of calls are found if they are not needed: if there is also a direct call. -/
theorem isFunctionPotentiallyReachableFrom_iff (collector : MachineFunctionCollector)
    (target : MachineFunctionId) (basicBlocks : List MachineBasicBlock) :
    ∃ result, (∀ fuel, collector.getAllMachineFunctions.length ≤ fuel →
        isFunctionPotentiallyReachableFrom (recomputeCallGraph collector) target fuel
          basicBlocks = .ok result) ∧
      ((result = true ↔ collector.CallChain basicBlocks target) ↔
        (collector.CallChain basicBlocks target →
          ∃ bb ∈ basicBlocks, collector.CallsDirectly bb target)) := by
  by_cases hdirect : ∃ bb ∈ basicBlocks, collector.CallsDirectly bb target
  · refine ⟨true, fun fuel hfuel => ?_, ?_⟩
    · obtain ⟨result, heq, hresult⟩ :=
        isFunctionPotentiallyReachableFrom_eq target basicBlocks hfuel
      rw [heq, hresult.mpr hdirect]
    · obtain ⟨bb, hbb, hcall⟩ := hdirect
      have hchain : collector.CallChain basicBlocks target := .call hbb hcall
      exact ⟨fun _ _ => ⟨bb, hbb, hcall⟩, fun _ => ⟨fun _ => hchain, fun _ => rfl⟩⟩
  · refine ⟨false, fun fuel hfuel => ?_, ?_⟩
    · obtain ⟨result, heq, hresult⟩ :=
        isFunctionPotentiallyReachableFrom_eq target basicBlocks hfuel
      rw [heq, Bool.eq_false_iff.mpr fun h => hdirect (hresult.mp h)]
    · simp [hdirect]

end Result

/-- The first function calls the second one, and that calls the third one. -/
def indirectCall : MachineFunctionCollector where
  getAllMachineFunctions := [0, 1, 2]
  blocks f := [f]
  instructions bb := [bb]
  isCall MI := decide (MI < 2)
  callTarget MI := .symbol (if MI = 0 then "f" else "g")
  Name2func name := if name = "f" then some 1 else if name = "g" then some 2 else none
  mem_of_Name2func := by
    intro name f h
    split_ifs at h <;> cases h <;> decide

/-- The call through the second function is not found. -/
theorem indirectCall_not_found :
    isFunctionPotentiallyReachableFrom (recomputeCallGraph indirectCall) 2 3 [0] = .ok false ∧
      indirectCall.CallChain [0] 2 := by
  have hblock : ∀ f ∈ [0, 1], ∃ g ∈ indirectCall.getAllMachineFunctions,
      f ∈ indirectCall.blocks g := by decide
  have hcall : ∀ f ∈ [0, 1], indirectCall.CallsDirectly f (f + 1) := by
    intro f hf
    refine ⟨f, ⟨hblock f hf, by simp [indirectCall], ?_⟩, ?_⟩ <;> revert f <;> decide
  refine ⟨by decide +kernel, ?_⟩
  exact .nested (.call (by simp) (hcall 0 (by simp))) (by simp [indirectCall]) (hcall 1 (by simp))

end Llvmta
