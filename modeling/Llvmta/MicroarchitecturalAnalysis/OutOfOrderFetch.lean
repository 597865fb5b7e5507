import Llvmta.MicroarchitecturalAnalysis.OutOfOrderCycles

/-!
# Instruction accesses of the out-of-order pipeline

The pipeline asks a topology without caches for its instruction access only while the
queue has room, and the topology tells only for one cycle that the access is finished. As
long as no cycle starts while this stands, the access is under way or observable.
-/

namespace Llvmta

open Checked

namespace SingleMemoryTopology

variable (opts : SingleMemoryOptions) {ν : Type} (M : AbstractCyclingMemory ν)

/-- The instruction access is queued or ongoing. -/
def IsUnderWay (m : SingleMemoryTopology ν) (id : ℕ) : Prop :=
  (∃ access ∈ m.instructionQueue, access.id = id) ∨ m.currentIdAccessed = id

/-- The access is under way, or it is observable that it is finished. -/
def IsTracked (m : SingleMemoryTopology ν) (id : ℕ) : Prop :=
  m.IsUnderWay id ∨ (m.finishedAccessIs id).1 = true

variable {opts M} {m m' : SingleMemoryTopology ν} {id : ℕ}

theorem finishedAccessIs_iff : (m.finishedAccessIs id).1 = true ↔ m.finishedAccess = id := by
  unfold finishedAccessIs
  split_ifs with h <;> simp [h]

theorem nextId_ne_zero (id : ℕ) : nextId id ≠ 0 := by
  unfold nextId
  dsimp only
  split_ifs with h
  · exact one_ne_zero
  · exact h

/-- The new access is queued. -/
theorem isUnderWay_of_accessInstr {addr numWords : ℕ}
    (h : accessInstr opts m addr numWords = .ok (some id, m')) :
    m'.IsUnderWay id ∧ id = m.currentId ∧ m'.currentId ≠ 0 := by
  obtain ⟨_, _, h⟩ := bind_eq_ok.mp h
  cases h
  exact ⟨.inl ⟨_, List.mem_append_right _ List.mem_cons_self, rfl⟩, rfl, nextId_ne_zero _⟩

/-- A data access does not concern the instruction access. -/
theorem isTracked_of_accessData (id : ℕ) {addr : AbstractAddress} {load_store : AccessType}
    {numWords : ℕ} {access : Option ℕ} (hid : m.currentId ≠ 0)
    (h : accessData opts m addr load_store numWords = .ok (access, m')) :
    (m'.IsTracked id ↔ m.IsTracked id) ∧ m'.currentId ≠ 0 := by
  obtain ⟨_, _, h⟩ := bind_eq_ok.mp h
  simp only [IsTracked, IsUnderWay, finishedAccessIs_iff]
  split at h <;> cases h
  · exact ⟨Iff.rfl, nextId_ne_zero _⟩
  · exact ⟨Iff.rfl, hid⟩

/-- Asking for another access does not concern it either. -/
theorem isTracked_of_finishedAccessIs {other : ℕ} (hne : other ≠ id) (h : m.IsTracked id) :
    (m.finishedAccessIs other).2.IsTracked id := by
  unfold IsTracked at h ⊢
  simp only [finishedAccessIs_iff] at h ⊢
  unfold finishedAccessIs
  split_ifs with hother
  · rcases h with h | h
    · exact .inl h
    · exact absurd (hother.symm.trans h) hne
  · exact h

theorem finishedAccessIs_of_false (h : m.finishedAccessIs id = (false, m')) : m' = m := by
  unfold finishedAccessIs at h
  split at h <;> cases h
  rfl

@[simp] theorem currentId_finishedAccessIs (m : SingleMemoryTopology ν) (id : ℕ) :
    (m.finishedAccessIs id).2.currentId = m.currentId := by
  unfold finishedAccessIs
  split_ifs <;> rfl

/-- What a cycle starts with: an access of a queue may become the ongoing one. -/
theorem startAccess_cases {pending : Bool} (hm' : Leads (startAccess opts M pending) m m') :
    m' = m ∨ m.currentIdAccessed = 0 ∧ m'.currentId = m.currentId ∧
      (m'.instructionQueue = m.instructionQueue ∨
        ∃ front, m.instructionQueue = front :: m'.instructionQueue ∧
          m'.currentIdAccessed = front.id) := by
  obtain ⟨ms, hms, hmem⟩ := hm'
  unfold startAccess at hms
  split at hms
  · next hidle =>
    split at hms
    · obtain ⟨res, hres, hms⟩ := bind_eq_ok.mp hms
      obtain ⟨announced, _, hres⟩ := bind_eq_ok.mp hres
      cases hres
      cases hms
      obtain ⟨r, hr, rfl⟩ := List.mem_map.mp hmem
      obtain ⟨memory, _, rfl⟩ := List.mem_map.mp hr
      exact .inr ⟨hidle, rfl, .inl rfl⟩
    · next front rest hdata hqueue =>
      split at hms
      · obtain ⟨_, _, hms⟩ := bind_eq_ok.mp hms
        obtain ⟨res, hres, hms⟩ := bind_eq_ok.mp hms
        obtain ⟨announced, _, hres⟩ := bind_eq_ok.mp hres
        cases hres
        cases hms
        obtain ⟨r, hr, rfl⟩ := List.mem_map.mp hmem
        obtain ⟨memory, _, rfl⟩ := List.mem_map.mp hr
        exact .inr ⟨hidle, rfl, .inr ⟨front, by simp [hqueue], rfl⟩⟩
      · cases hms
        exact .inl (List.mem_singleton.mp hmem)
    · cases hms
      exact .inl (List.mem_singleton.mp hmem)
  · cases hms
    exact .inl (List.mem_singleton.mp hmem)

/-- The access that is taken from its queue becomes the ongoing one. -/
theorem isUnderWay_of_startAccess {pending : Bool} (h : m.IsUnderWay id) (hid : id ≠ 0)
    (hm' : Leads (startAccess opts M pending) m m') : m'.IsUnderWay id := by
  rcases startAccess_cases hm' with rfl | ⟨hidle, _, hqueue⟩
  · exact h
  · have hqueued : ∃ access ∈ m.instructionQueue, access.id = id := by
      rcases h with h | h
      · exact h
      · exact absurd (h.symm.trans hidle) hid
    rcases hqueue with hqueue | ⟨front, hqueue, hcurrent⟩
    · exact .inl (hqueue ▸ hqueued)
    · obtain ⟨access, haccess, heq⟩ := hqueued
      rw [hqueue] at haccess
      rcases List.mem_cons.mp haccess with rfl | haccess
      · exact .inr (hcurrent.trans heq)
      · exact .inl ⟨access, haccess, heq⟩

/-- A cycle starts an access and finishes the ongoing one when the memory is not busy. -/
theorem cycle_cases {pending : Bool} (hm' : Leads (cycle opts M pending) m m') :
    ∃ r memory, Leads (startAccess opts M pending) m r ∧
      (m' = { r with memory, finishedAccess := 0, waitingForJoin := false } ∨
        m' = { r with
          memory, finishedAccess := r.currentIdAccessed, waitingForJoin := true
          currentIdAccessed := 0 }) := by
  obtain ⟨ms, hms, hmem⟩ := hm'
  obtain ⟨started, hstarted, hms⟩ := bind_eq_ok.mp hms
  obtain ⟨r, hr, l, hl, hmem⟩ := (mem_forEach hms).mp hmem
  obtain ⟨memories, _, hl⟩ := bind_eq_ok.mp hl
  obtain ⟨memory, _, l', hl', hmem⟩ := (mem_forEach hl).mp hmem
  obtain ⟨newInst, hcycled, hl'⟩ := bind_eq_ok.mp hl'
  cases hl'
  cases List.mem_singleton.mp hmem
  obtain ⟨_, _, hcycled⟩ := bind_eq_ok.mp hcycled
  cases hcycled
  refine ⟨r, memory, ⟨started, hstarted, hr⟩, ?_⟩
  dsimp only
  split_ifs
  · exact .inr rfl
  · exact .inl rfl

theorem currentId_of_cycle {pending : Bool} (hm' : Leads (cycle opts M pending) m m') :
    m'.currentId = m.currentId := by
  obtain ⟨r, memory, hr, hcycled⟩ := cycle_cases hm'
  have hcurrent : r.currentId = m.currentId := by
    rcases startAccess_cases hr with rfl | ⟨_, hcurrent, _⟩
    · rfl
    · exact hcurrent
  rcases hcycled with rfl | rfl <;> exact hcurrent

/-- An access under way is so after a cycle, or it is observable that it is finished. -/
theorem isTracked_of_cycle {pending : Bool} (h : m.IsUnderWay id) (hid : id ≠ 0)
    (hm' : Leads (cycle opts M pending) m m') : m'.IsTracked id := by
  obtain ⟨r, memory, hr, hcycled⟩ := cycle_cases hm'
  have hway : r.IsUnderWay id := isUnderWay_of_startAccess h hid hr
  rcases hcycled with rfl | rfl
  · exact .inl hway
  · rcases hway with hqueued | hongoing
    · exact .inl (.inl hqueued)
    · exact .inr (finishedAccessIs_iff.mpr hongoing)

theorem isTracked_of_fastForward (id : ℕ) (hm' : Leads (fastForward M) m m') :
    (m'.IsTracked id ↔ m.IsTracked id) ∧ m'.currentId = m.currentId := by
  obtain ⟨ms, hms, hmem⟩ := hm'
  simp only [IsTracked, finishedAccessIs_iff]
  unfold fastForward at hms
  split at hms
  · obtain ⟨_, _, hms⟩ := bind_eq_ok.mp hms
    obtain ⟨forwarded, _, hms⟩ := bind_eq_ok.mp hms
    cases hms
    obtain ⟨memory, _, rfl⟩ := List.mem_map.mp hmem
    exact ⟨Iff.rfl, rfl⟩
  · cases hms
    cases List.mem_singleton.mp hmem
    exact ⟨Iff.rfl, rfl⟩

end SingleMemoryTopology

namespace MicroArch.OutOfOrderPipelineState

variable {P : Program} {opts : SingleMemoryOptions} {ν : Type} {M : AbstractCyclingMemory ν}
  {s s' t : OutOfOrderPipelineState (SingleMemoryTopology ν)}

/-- The instruction access is under way or observably finished, unless fetching stopped. -/
def FetchTracked (s : OutOfOrderPipelineState (SingleMemoryTopology ν)) : Prop :=
  s.instructionQueue.stallFetch = false → s.memory.IsTracked s.instructionQueue.instrAccessId

/-- It does not stand in the topology that the instruction access is finished, and no data
access of the pipeline has its identifier. -/
def FetchNoted (s : OutOfOrderPipelineState (SingleMemoryTopology ν)) : Prop :=
  s.instructionQueue.stallFetch = false →
    s.memory.finishedAccess ≠ s.instructionQueue.instrAccessId ∧
      ∀ fu ∈ s.funcUnits, ∀ access ∈ fu.pendingAccesses.entries,
        access.2 ≠ s.instructionQueue.instrAccessId

/-- Identifiers are not zero. -/
def FetchIdentified (s : OutOfOrderPipelineState (SingleMemoryTopology ν)) : Prop :=
  s.memory.currentId ≠ 0 ∧ s.instructionQueue.instrAccessId ≠ 0

/-- The instruction access is tracked and identifiers are not zero. -/
structure FetchInvariant (s : OutOfOrderPipelineState (SingleMemoryTopology ν)) : Prop where
  tracked : FetchTracked s
  identified : FetchIdentified s

/-- A new access is under way. -/
theorem fetchInvariant_of_accessInstr {id : ℕ} {memory : SingleMemoryTopology ν}
    (hs : s.memory.currentId ≠ 0) (h : (SingleMemoryTopology.pipelineTopology opts M).accessInstr
      s.memory s.pc.1 1 = .ok (some id, memory)) (hmemory : s'.memory = memory)
    (hid : s'.instructionQueue.instrAccessId = id) : FetchInvariant s' := by
  obtain ⟨hway, heq, hcurrent⟩ := SingleMemoryTopology.isUnderWay_of_accessInstr h
  subst hmemory hid
  exact ⟨fun _ => .inl hway, hcurrent, heq ▸ hs⟩

/-- The invariant concerns the memory and the queue only. -/
theorem FetchInvariant.congr (h : FetchInvariant s) (hmemory : s'.memory = s.memory)
    (hid : s'.instructionQueue.instrAccessId = s.instructionQueue.instrAccessId)
    (hstall : s'.instructionQueue.stallFetch = s.instructionQueue.stallFetch) :
    FetchInvariant s' := by
  obtain ⟨htracked, hidentified⟩ := h
  unfold FetchTracked at htracked
  unfold FetchIdentified at hidentified
  rw [← hmemory, ← hid] at hidentified
  rw [← hmemory, ← hid, ← hstall] at htracked
  exact ⟨htracked, hidentified⟩

/-- The cycle of the memory, before which nothing stood in the topology. -/
theorem fetchInvariant_started {memory : SingleMemoryTopology ν} (h : FetchInvariant s)
    (hnoted : FetchNoted s)
    (hmemory : Leads ((SingleMemoryTopology.pipelineTopology opts M).cycle false) s.memory memory) :
    FetchInvariant (started s memory) := by
  refine ⟨fun hstall => ?_, ?_, h.identified.2⟩
  · have hway : s.memory.IsUnderWay s.instructionQueue.instrAccessId := by
      rcases h.tracked hstall with hway | hfinished
      · exact hway
      · exact absurd (SingleMemoryTopology.finishedAccessIs_iff.mp hfinished) (hnoted hstall).1
    exact SingleMemoryTopology.isTracked_of_cycle hway h.identified.2 hmemory
  · exact (SingleMemoryTopology.currentId_of_cycle hmemory).symm ▸ h.identified.1

/-- Units ask for other accesses only. -/
theorem fetchInvariant_of_cycleFuncUnit {addrInfo : AddressInformation} {i : ℕ}
    (h : FetchInvariant s)
    (hother : s.instructionQueue.stallFetch = false → ∀ fu, s.funcUnits[i]? = some fu →
      ∀ access ∈ fu.pendingAccesses.entries, access.2 ≠ s.instructionQueue.instrAccessId)
    (ht : Leads (cycleFuncUnit P (SingleMemoryTopology.pipelineTopology opts M) addrInfo i) s t) :
    FetchInvariant t ∧ t.instructionQueue = s.instructionQueue ∧
      ∀ j, j ≠ i → t.funcUnits[j]? = s.funcUnits[j]? := by
  obtain ⟨fu, fu', memory, hfu, hcycle, rfl⟩ := cycleFuncUnit_cases ht
  obtain ⟨fu'', bus, heq, _⟩ := broadcast_eq { s with memory } i fu'
  rw [heq]
  refine ⟨⟨fun hstall => ?_, ?_, h.identified.2⟩, rfl, fun j hj => List.getElem?_set_ne hj.symm⟩
  · let I (m : SingleMemoryTopology ν) : Prop :=
      m.currentId ≠ 0 ∧ m.IsTracked s.instructionQueue.instrAccessId
    suffices hI : I memory from hI.2
    refine hcycle.memory_invariant (I := I) ?_ ?_ ⟨h.identified.1, h.tracked hstall⟩
    · intro m access haccess hm
      refine ⟨?_, ?_⟩
      · exact (SingleMemoryTopology.currentId_finishedAccessIs m access.2).trans_ne hm.1
      · exact SingleMemoryTopology.isTracked_of_finishedAccessIs
          (hother hstall fu hfu access haccess) hm.2
    · intro m addr accessType id m' hm haccess
      obtain ⟨htracked, hcurrent⟩ := SingleMemoryTopology.isTracked_of_accessData
        s.instructionQueue.instrAccessId hm.1 haccess
      exact ⟨hcurrent, htracked.mpr hm.2⟩
  · let I (m : SingleMemoryTopology ν) : Prop := m.currentId ≠ 0
    refine hcycle.memory_invariant (I := I) ?_ ?_ h.identified.1
    · intro m access _ hm
      exact (SingleMemoryTopology.currentId_finishedAccessIs m access.2).trans_ne hm
    · intro m addr accessType id m' hm haccess
      exact (SingleMemoryTopology.isTracked_of_accessData 0 hm haccess).2

/-- The units one after the other, each of which is as it was before its turn. -/
theorem fetchInvariant_of_unitsCycle {addrInfo : AddressInformation} {is : List ℕ}
    (h : FetchInvariant s) (hnodup : is.Nodup)
    (hother : s.instructionQueue.stallFetch = false → ∀ i ∈ is, ∀ fu, s.funcUnits[i]? = some fu →
      ∀ access ∈ fu.pendingAccesses.entries, access.2 ≠ s.instructionQueue.instrAccessId)
    (ht : UnitsCycle P (SingleMemoryTopology.pipelineTopology opts M) addrInfo is s t) :
    FetchInvariant t := by
  induction ht with
  | nil => exact h
  | @cons i is s t u hlead _ ih =>
    obtain ⟨hi, hnodup⟩ := List.nodup_cons.mp hnodup
    obtain ⟨ht, hqueue, hunits⟩ := fetchInvariant_of_cycleFuncUnit h
      (fun hstall fu hfu => hother hstall i List.mem_cons_self fu hfu) hlead
    apply ih ht hnodup
    rw [hqueue]
    intro hstall j hj fu hfu
    have hne : j ≠ i := fun heq => hi (heq ▸ hj)
    exact hother hstall j (List.mem_cons_of_mem i hj) fu ((hunits j hne).symm.trans hfu)

/-- Issuing takes an element from the queue only. -/
theorem fetchInvariant_of_tryIssueInstr (h : FetchInvariant s) (ht : tryIssueInstr P s = .ok t) :
    FetchInvariant t := by
  apply tryIssueInstr_invariant _ h ht
  intro u u' ee mi k _ _ hu hissue
  obtain ⟨_, _, _, _, _, _, _, _, _, _, rfl⟩ := issueTo_eq_ok hissue
  exact hu.congr rfl rfl rfl

/-- The topology does not know scopes. -/
theorem memory_of_enterScopesFrom {source : ℕ}
    (ht : enterScopesFrom P (SingleMemoryTopology.pipelineTopology opts M) s source = .ok t) :
    t.memory = s.memory ∧ t.instructionQueue = s.instructionQueue ∧
      t.toMicroArchitecturalState = s.toMicroArchitecturalState := by
  rcases enterScopesFrom_eq_ok ht with rfl | ⟨scopes, entrances, _, _, _, _, rfl⟩
  · exact ⟨rfl, rfl, rfl⟩
  · refine ⟨?_, rfl, rfl⟩
    exact List.foldl_fixed scopes

theorem memory_leaveEntrances (memory : SingleMemoryTopology ν) (entrances : List ScopeEntrance) :
    leaveEntrances (SingleMemoryTopology.pipelineTopology opts M) memory entrances = memory := by
  apply List.foldl_fixed'
  intro entrance
  apply List.foldl_fixed'
  intro scopes
  exact List.foldl_fixed scopes

theorem fetchInvariant_of_startAccess {message : String} (hs : s.memory.currentId ≠ 0)
    (ht : startAccess (SingleMemoryTopology.pipelineTopology opts M) s message = .ok t) :
    FetchInvariant t := by
  obtain ⟨id, memory, haccess, rfl⟩ := startAccess_eq_ok ht
  exact fetchInvariant_of_accessInstr hs haccess rfl rfl

/-- Nothing changes, fetching stops, or a new access is started. -/
theorem fetchInvariant_of_fills {ins2ctx : InstrContextMapping} {fetched : List ExecutionElement}
    (h : FetchInvariant s)
    (ht : Fills P (SingleMemoryTopology.pipelineTopology opts M) ins2ctx s t fetched) :
    FetchInvariant t := by
  have hcurrent {finished : Bool} {memory : SingleMemoryTopology ν}
      (hpoll : s.memory.finishedAccessIs s.instructionQueue.instrAccessId = (finished, memory)) :
      memory.currentId ≠ 0 := by
    have heq := SingleMemoryTopology.currentId_finishedAccessIs s.memory
      s.instructionQueue.instrAccessId
    rw [hpoll] at heq
    exact heq.trans_ne h.identified.1
  cases ht with
  | skips => exact h
  | waits _ hpoll =>
    have hsame := SingleMemoryTopology.finishedAccessIs_of_false hpoll
    exact h.congr hsame rfl rfl
  | ends _ hpoll => exact ⟨(fun hstall => nomatch hstall), hcurrent hpoll, h.identified.2⟩
  | stops _ _ hpoll _ _ hu =>
    rw [branchEarly_eq_ok hu]
    exact ⟨(fun hstall => nomatch hstall), hcurrent hpoll, h.identified.2⟩
  | continues _ _ hpoll _ _ hu _ hv ht =>
    obtain ⟨hmemory, _, _⟩ := memory_of_enterScopesFrom hv
    rw [branchEarly_eq_ok hu] at hmemory
    exact fetchInvariant_of_startAccess (hmemory ▸ hcurrent hpoll) ht

theorem fetchInvariant_of_cycleComponents {ins2ctx : InstrContextMapping}
    {fetched tempFi : List ExecutionElement} (h : FetchInvariant s)
    (ht : cycleComponents P (SingleMemoryTopology.pipelineTopology opts M) ins2ctx s =
      .ok (t, fetched, tempFi)) : FetchInvariant t := by
  obtain ⟨_, _, _, _, u, _, _, hu, ht⟩ := cycleComponents_eq_ok ht
  apply fetchInvariant_of_fills _ ht
  apply fetchInvariant_of_tryIssueInstr _ hu
  exact h.congr rfl rfl rfl

/-- The flushed pipeline has started a new access. -/
theorem fetchInvariant_of_emptyPipeline {committedInstr : ℕ} (hs : s.memory.currentId ≠ 0)
    (ht : emptyPipeline P (SingleMemoryTopology.pipelineTopology opts M) s committedInstr = .ok t) :
    FetchInvariant t := by
  obtain ⟨left, u, rob, hleft, hu, _, rfl⟩ := emptyPipeline_eq_ok ht
  obtain ⟨v, id, memory, hv, haccess, rfl⟩ := flushQueue_eq_ok hu
  obtain ⟨hmemory, _, _⟩ := memory_of_enterScopesFrom hv
  have hsame : left.memory = s.memory := by
    rw [hleft]
    split_ifs
    · exact memory_leaveEntrances s.memory s.speculativeScopeEntrances
    · rfl
  apply fetchInvariant_of_accessInstr (s := v) _ haccess rfl rfl
  rw [hmemory]
  exact hsame ▸ hs

theorem fetchInvariant_of_handles {ins2ctx : InstrContextMapping} {fis : List ExecutionElement}
    {flushed : Bool} (h : FetchInvariant s)
    (ht : Handles P (SingleMemoryTopology.pipelineTopology opts M) ins2ctx fis s t flushed) :
    FetchInvariant t := by
  induction ht with
  | nil => exact h
  | @plain fi _ _ s _ _ _ _ _ ih =>
    apply ih
    obtain ⟨entrances, heq⟩ := commits_eq s fi
    rw [heq]
    exact h.congr rfl rfl rfl
  | @branch fi _ _ s _ _ _ _ _ _ _ hempty _ ih =>
    apply ih
    obtain ⟨entrances, heq⟩ := commits_eq s fi
    rw [heq] at hempty
    apply fetchInvariant_of_emptyPipeline _ hempty
    exact h.identified.1
  | @flushedAlternative fi _ _ s _ _ _ _ _ hempty =>
    obtain ⟨entrances, heq⟩ := commits_eq s fi
    rw [heq] at hempty
    apply fetchInvariant_of_emptyPipeline _ hempty
    exact h.identified.1
  | @alternative fi _ _ s _ _ _ _ _ =>
    obtain ⟨entrances, heq⟩ := commits_eq s fi
    rw [heq]
    exact h.congr rfl rfl rfl

theorem FetchInvariant.forward {memory : SingleMemoryTopology ν} (h : FetchInvariant s)
    (hforward : Forwards (SingleMemoryTopology.pipelineTopology opts M) s.memory memory) :
    FetchInvariant { s with memory } := by
  rcases hforward with rfl | hforward
  · exact h
  · obtain ⟨htracked, hcurrent⟩ := SingleMemoryTopology.isTracked_of_fastForward
      s.instructionQueue.instrAccessId hforward
    exact ⟨fun hstall => htracked.mpr (h.tracked hstall), hcurrent.trans_ne h.identified.1,
      h.identified.2⟩

theorem FetchInvariant.close {tempFi : List ExecutionElement} (h : FetchInvariant s) :
    FetchInvariant (closeScopes P (SingleMemoryTopology.pipelineTopology opts M) s tempFi) := by
  have hleave {s : OutOfOrderPipelineState (SingleMemoryTopology ν)} {source target : ℕ}
      (h : FetchInvariant s) : FetchInvariant (leavePersistenceScope P
        (SingleMemoryTopology.pipelineTopology opts M) s source target) :=
    h.congr (List.foldl_fixed _) rfl rfl
  induction tempFi generalizing s with
  | nil => exact h
  | cons fi fis ih =>
    cases fis with
    | nil => exact hleave h
    | cons nextfi fis => exact ih (hleave h)

/-- A cycle before which nothing stood in the topology keeps track of the access. -/
theorem fetchInvariant_of_cycles {dep : StateDep} {log : CycleLog} (h : FetchInvariant s)
    (hnoted : FetchNoted s)
    (ht : Cycles P (SingleMemoryTopology.pipelineTopology opts M) dep s t log) :
    FetchInvariant t := by
  cases ht with
  | stalls hmemory _ hforward =>
    exact (fetchInvariant_started h hnoted hmemory).forward (s := started s _) hforward
  | runs hmemory _ hu hv hw hforward =>
    have hunits := fetchInvariant_of_unitsCycle (fetchInvariant_started h hnoted hmemory)
      List.nodup_range (fun hstall i _ fu hfu => (hnoted hstall).2 fu (List.mem_of_getElem? hfu)) hu
    have hhandled := fetchInvariant_of_handles (fetchInvariant_of_cycleComponents hunits hv) hw
    unfold closes
    split_ifs
    · exact (hhandled.forward hforward).close
    · exact hhandled.forward hforward

theorem fetchInvariant_of_new {progloc : ExecutionElement}
    (ht : new (SingleMemoryTopology.pipelineTopology opts M) progloc = .ok t) :
    FetchInvariant t :=
  fetchInvariant_of_startAccess one_ne_zero ht

/-- In a run whose cycles start while nothing stands in the topology, the instruction access
is always under way or observably finished. -/
theorem fetchTracked_of_reachable
    (h : Reachable P (SingleMemoryTopology.pipelineTopology opts M) FetchNoted s) :
    FetchTracked s := by
  suffices hinv : FetchInvariant s from hinv.tracked
  obtain ⟨logs, h⟩ := h
  induction h with
  | new hs => exact fetchInvariant_of_new hs
  | cycle _ hnoted hs' ih =>
    obtain ⟨results, hresults, hmem⟩ := hs'
    exact fetchInvariant_of_cycles ih hnoted (cycles_of_observedCycle hresults hmem)
  | isFinal _ ee ih =>
    unfold isFinal
    split_ifs
    · exact ih
    · exact ih.congr rfl rfl rfl
  | @resetLocalMetrics _ s _ ih =>
    have hmemory : FetchTracked (resetLocalMetrics
        (SingleMemoryTopology.pipelineTopology opts M) s) := by
      intro hstall
      have htracked := ih.tracked hstall
      simp only [SingleMemoryTopology.IsTracked, SingleMemoryTopology.finishedAccessIs_iff]
        at htracked ⊢
      exact htracked
    exact ⟨hmemory, ih.identified⟩
  | useBranchAssumption _ ih => exact ih.congr rfl rfl rfl
  | useReturnAssumption _ ih => exact ih.congr rfl rfl rfl

section StraightLine

instance (s : OutOfOrderPipelineState (SingleMemoryTopology ν)) : Decidable (FetchNoted s) :=
  inferInstanceAs (Decidable (_ → _ ∧ _))

instance (s : OutOfOrderPipelineState (SingleMemoryTopology ν)) : Decidable (FetchTracked s) :=
  inferInstanceAs (Decidable (_ → (_ ∨ _) ∨ _))

theorem fetchTracked_straightLine : FetchTracked (straightLineAfter 6 11) :=
  fetchTracked_of_reachable (reachable_straightLineAfter (by decide +kernel))

/-- Behind slow instructions the queue stays full for longer than the access takes: the
access is lost, and it is so when the queue and the reorder buffer have become empty. -/
theorem fetch_lost : ∃ s, Reachable (straightLine 6) oneCycleTopology (fun _ => True) s ∧
    ¬ FetchTracked s ∧ s.instructionQueue.queue = [] ∧ s.reOrderBuffer.isEmpty = true := by
  refine ⟨straightLineAfter 6 34, reachable_straightLineAfter ?_, ?_⟩
  · decide +kernel
  · decide +kernel

end StraightLine

end MicroArch.OutOfOrderPipelineState

end Llvmta
