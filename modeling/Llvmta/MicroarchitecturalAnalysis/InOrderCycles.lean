import Llvmta.Library.Successors
import Llvmta.MicroarchitecturalAnalysis.InOrderPipelineState

/-!
# Cycles of the in-order pipeline

What each stage can do, and the stages in the order of a cycle. Every invariant of the
pipeline is preserved by each stage.
-/

namespace Llvmta.MicroArch.InOrderPipelineState

open Checked

variable (P : Program) (T : InOrderTarget) {μ : Type} (M : MemoryTopology μ)

/-- The state after the memory was cycled. -/
def started (s : InOrderPipelineState μ) (memory : μ) : InOrderPipelineState μ :=
  { s with stallMemory := false, interlock := false, time := s.time.add (.ofValue 1), memory }

/-- What the memory leads to, after it may have been asked for the current access. -/
def MemoryCycles (memory memory' : μ) : Prop :=
  ∃ pending polled, (polled = memory ∨ ∃ id, polled = (M.finishedDataAccess memory id).2) ∧
    Leads (M.cycle pending) polled memory'

/-- The outcomes when an instruction leaves the execute stage or the memory stage. -/
inductive Branches (ins2ctx : InstrContextMapping) (memory : Bool) (ee : ExecutionElement)
    (s : InOrderPipelineState μ) : InOrderPipelineState μ → Prop
  | plain (hplain : ∀ mi, P.getMachineInstrByAddr ee.1 = some mi → changesControlFlow mi = true →
      mi.mayLoad = !memory ∧ (memory = false → T.loadsToPc mi.getOpcode = true)) :
    Branches ins2ctx memory ee s s
  | flushes {mi : MachineInstr} {m₀ m : MicroArchitecturalState}
    {alternatives : List MicroArchitecturalState} {t : InOrderPipelineState μ}
    (hmi : P.getMachineInstrByAddr ee.1 = some mi) (hcontrol : changesControlFlow mi = true)
    (hload : mi.mayLoad = memory)
    (hm : s.handleBranching P ee ins2ctx = .ok (m₀, alternatives))
    (hmem : m = m₀ ∨ m ∈ alternatives)
    (ht : emptyPipelineDueToBranching P M { s with toMicroArchitecturalState := m } s.pc.1 =
      .ok t) : Branches ins2ctx memory ee s t
  | alternative {mi : MachineInstr} {m₀ m : MicroArchitecturalState}
    {alternatives : List MicroArchitecturalState}
    (hmi : P.getMachineInstrByAddr ee.1 = some mi) (hcontrol : changesControlFlow mi = true)
    (hload : mi.mayLoad = memory) (hreturn : (mi.isReturn || mi.isJumpTableBranch) = false)
    (hm : s.handleBranching P ee ins2ctx = .ok (m₀, alternatives)) (hmem : m ∈ alternatives)
    (hstrict : T.strictInOrder = false) :
    Branches ins2ctx memory ee s { s with toMicroArchitecturalState := m }
  | accesses {mi : MachineInstr} {m₀ m : MicroArchitecturalState}
    {alternatives : List MicroArchitecturalState} {t : InOrderPipelineState μ}
    (hmi : P.getMachineInstrByAddr ee.1 = some mi) (hcontrol : changesControlFlow mi = true)
    (hload : mi.mayLoad = memory) (hreturn : (mi.isReturn || mi.isJumpTableBranch) = false)
    (hm : s.handleBranching P ee ins2ctx = .ok (m₀, alternatives)) (hmem : m ∈ alternatives)
    (hstrict : T.strictInOrder = true)
    (ht : accessInstruction M { s with toMicroArchitecturalState := m } = .ok t) :
    Branches ins2ctx memory ee s t

/-- What the memory stage can do, with the data events. -/
inductive MemoryStage (dep : StateDep) (s : InOrderPipelineState μ) :
    InOrderPipelineState μ → List DataEvent → Prop
  | empty (hee : s.exMem = none) : MemoryStage dep s s []
  | stays {ee : ExecutionElement} {mi : MachineInstr} {t : InOrderPipelineState μ}
    {events : List DataEvent} (hee : s.exMem = some ee)
    (hmi : P.getMachineInstrByAddr ee.1 = some mi)
    (ht : finishAccesses P M dep.addrInfo ee mi s = .ok (t, events))
    (hstall : t.stallMemory = true ∨ t.memWb ≠ none) : MemoryStage dep s t events
  | leaves {ee : ExecutionElement} {mi : MachineInstr} {interlock : Bool}
    {t u : InOrderPipelineState μ} {events : List DataEvent} (hee : s.exMem = some ee)
    (hmi : P.getMachineInstrByAddr ee.1 = some mi)
    (ht : finishAccesses P M dep.addrInfo ee mi s = .ok (t, events))
    (hstall : t.stallMemory = false) (hroom : t.memWb = none) (hex : t.exMem = some ee)
    (hu : Branches P T M dep.ins2ctx true ee { t with interlock, memWb := some ee } u) :
    MemoryStage dep s { u with exMem := none } events

/-- What the execute stage can do, with the data events. -/
inductive ExecuteStage (dep : StateDep) (s : InOrderPipelineState μ) :
    InOrderPipelineState μ → List DataEvent → Prop
  | waits (hwaits : s.idEx = none ∨ s.interlock = true) : ExecuteStage dep s s []
  | continues {ee : ExecutionElement} {times : List ℕ} (hee : s.idEx = some ee)
    (htimes : times ≠ []) : ExecuteStage dep s { s with remainingExecutionTimes := times } []
  | ends {ee : ExecutionElement} (hee : s.idEx = some ee)
    (hmi : P.getMachineInstrByAddr ee.1 = none) :
    ExecuteStage dep s { s with idEx := none, remainingExecutionTimes := [] } []
  | leaves {ee : ExecutionElement} {t u : InOrderPipelineState μ} {events : List DataEvent}
    (hee : s.idEx = some ee) (hroom : s.exMem = none)
    (ht : accessDataFromMemoryTopology P M dep.addrInfo
      { s with exMem := some ee, dataAccessIds := .empty, currMemoryAccess := 0 } =
        .ok (t, events))
    (hu : Branches P T M dep.ins2ctx false ee t u) :
    ExecuteStage dep s { u with idEx := none, remainingExecutionTimes := [] } events

/-- What the decode stage can do. -/
inductive DecodeStage (s : InOrderPipelineState μ) : InOrderPipelineState μ → Prop
  | waits (hwaits : s.ifId = none ∨ s.idEx ≠ none) : DecodeStage s s
  | ends {ee : ExecutionElement} (hee : s.ifId = some ee) (hroom : s.idEx = none)
    (hmi : P.getMachineInstrByAddr ee.1 = none) : DecodeStage s { s with ifId := none }
  | decodes {ee : ExecutionElement} {mi : MachineInstr} {times : List ℕ}
    (hee : s.ifId = some ee) (hroom : s.idEx = none)
    (hmi : P.getMachineInstrByAddr ee.1 = some mi)
    (htimes : P.instructionExecutionTimes mi.getOpcode = some times) :
    DecodeStage s { s with idEx := some ee, remainingExecutionTimes := times, ifId := none }

/-- What the fetch stage can do. -/
inductive FetchStage (s : InOrderPipelineState μ) : InOrderPipelineState μ → Prop
  | restarts {t : InOrderPipelineState μ} (hflushed : s.flushedFetchStage = true)
    (ht : restartFetch P M s = .ok t) : FetchStage s t
  | waits (hflushed : s.flushedFetchStage = false)
    (hwaits : s.ifId ≠ none ∨ (pollFetch M s).instructionAccessFinished = false) :
    FetchStage s (pollFetch M s)
  | fetches {t : InOrderPipelineState μ} (hflushed : s.flushedFetchStage = false)
    (hroom : s.ifId = none) (hfinished : (pollFetch M s).instructionAccessFinished = true)
    (ht : fetch P T M (pollFetch M s) = .ok t) : FetchStage s t

/-- A memory may be fast-forwarded. -/
def Forwards (memory memory' : μ) : Prop := memory' = memory ∨ Leads M.fastForward memory memory'

/-- What a cycle reports when the stages lead from state to state. -/
def logOf (s memSucc execSucc decoded fetched : InOrderPipelineState μ)
    (accesses : List DataEvent) : InOrderLog where
  fetched := if decoded.ifId.isNone then fetched.ifId.toList else []
  cause := if memSucc.flushedFetchStage then s.exMem
    else if execSucc.flushedFetchStage then memSucc.idEx else none
  flushed := if execSucc.flushedFetchStage then s.ifId.toList else []
  abandoned := if execSucc.flushedFetchStage then [s.pc] else []
  ended := if decoded.ifId.isNone && decoded.idEx == execSucc.idEx then execSucc.ifId.toList
    else []
  completed := s.memWb.toList
  accesses := accesses

/-- What a cycle leads to. -/
inductive Cycles (dep : StateDep) (s : InOrderPipelineState μ) :
    InOrderPipelineState μ → InOrderLog → Prop
  | stalls {memory memory' : μ} (hmemory : MemoryCycles M s.memory memory) (hfinal : s.wbFin = none)
    (hstall : M.shouldPipelineStall memory = true) (hforward : Forwards M memory memory') :
    Cycles dep s { started s memory with memory := memory' } ⟨[], none, [], [], [], [], []⟩
  | runs {memory memory' : μ} {t u v w : InOrderPipelineState μ} {events events' : List DataEvent}
    (hmemory : MemoryCycles M s.memory memory) (hfinal : s.wbFin = none)
    (hstall : M.shouldPipelineStall memory = false)
    (ht : MemoryStage P T M dep (processWriteBackStage P M (started s memory)) t events)
    (hu : ExecuteStage P T M dep t u events') (hv : DecodeStage P u v) (hw : FetchStage P T M v w)
    (hforward : Forwards M w.memory memory') :
    Cycles dep s { w with memory := memory' }
      (logOf (started s memory) t u v w (events ++ events'))

/-- The runs whose cycles are permitted, with what happened in the cycles. Beside its cycles a
pipeline is asked for final instructions, and its assumptions are used up. -/
inductive Run (addrInfo : AddressInformation)
    (permitted : InOrderPipelineState μ → InOrderLog → Prop) :
    List InOrderLog → InOrderPipelineState μ → Prop
  | new {progloc : ExecutionElement} {s : InOrderPipelineState μ} (hs : new M progloc = .ok s) :
    Run addrInfo permitted [] s
  | cycle {logs : List InOrderLog} {ins2ctx : InstrContextMapping} {s s' : InOrderPipelineState μ}
    {log : InOrderLog} (h : Run addrInfo permitted logs s) (hs : permitted s log)
    (hs' : Leads (observedCycle P T M ⟨ins2ctx, addrInfo⟩) s (s', log)) :
    Run addrInfo permitted (logs ++ [log]) s'
  | isFinal {logs : List InOrderLog} {s : InOrderPipelineState μ}
    (h : Run addrInfo permitted logs s) (ee : ExecutionElement) :
    Run addrInfo permitted logs (isFinal P M s ee).2
  | resetLocalMetrics {logs : List InOrderLog} {s : InOrderPipelineState μ}
    (h : Run addrInfo permitted logs s) : Run addrInfo permitted logs (resetLocalMetrics M s)
  | useBranchAssumption {logs : List InOrderLog} {s : InOrderPipelineState μ}
    (h : Run addrInfo permitted logs s) : Run addrInfo permitted logs s.useBranchAssumption
  | useReturnAssumption {logs : List InOrderLog} {s : InOrderPipelineState μ}
    (h : Run addrInfo permitted logs s) : Run addrInfo permitted logs s.useReturnAssumption

variable {P T M} {s t : InOrderPipelineState μ} {ee : ExecutionElement}

section Inversion

theorem accessInstruction_eq_ok (h : accessInstruction M s = .ok t) :
    ∃ instructionAccessId memory, M.accessInstr s.memory s.pc.1 1 = .ok (instructionAccessId, memory) ∧
      t = { s with instructionAccessId, memory } := by
  obtain ⟨⟨instructionAccessId, memory⟩, haccess, h⟩ := bind_eq_ok.mp h
  cases h
  exact ⟨instructionAccessId, memory, haccess, rfl⟩

theorem nextPopulatedStage_eq_ok {stages : List (Option ExecutionElement)} :
    nextPopulatedStage stages = .ok ee ↔ stages.findSome? id = some ee := by
  unfold nextPopulatedStage
  cases stages.findSome? id <;> simp

/-- Each outcome of a branch. -/
theorem branches_of_checkForBranches {ins2ctx : InstrContextMapping} {memory : Bool}
    {branched : List (InOrderPipelineState μ)}
    (hee : (if memory then s.exMem else s.idEx) = some ee)
    (h : checkForBranches P T M ins2ctx memory s = .ok (t, branched)) :
    Branches P T M ins2ctx memory ee s t ∧
      ∀ alt ∈ branched, Branches P T M ins2ctx memory ee s alt := by
  have hnone (hplain : ∀ mi, P.getMachineInstrByAddr ee.1 = some mi →
        changesControlFlow mi = true → mi.mayLoad = !memory ∧
          (memory = false → T.loadsToPc mi.getOpcode = true))
      (h : Except.ok (s, ([] : List (InOrderPipelineState μ))) =
        (.ok (t, branched) : Except Fault _)) :
      Branches P T M ins2ctx memory ee s t ∧
        ∀ alt ∈ branched, Branches P T M ins2ctx memory ee s alt := by
    cases h
    exact ⟨.plain hplain, fun alt halt => nomatch halt⟩
  unfold checkForBranches at h
  rw [hee] at h
  dsimp only at h
  split at h
  · next hmi => exact hnone (fun mi hmi' => nomatch hmi.symm.trans hmi') h
  · next exInstr hmi =>
    split at h
    · next hcontrol =>
      split at h
      · next hload =>
        rw [Bool.and_eq_true, Bool.not_eq_true'] at hload
        obtain ⟨_, hopcode, h⟩ := bind_eq_ok.mp h
        refine hnone (fun mi hmi' _ => ?_) h
        cases hmi.symm.trans hmi'
        rw [hload.1]
        exact ⟨hload.2, fun _ => of_assertThat hopcode⟩
      · next hexecute =>
        split at h
        · next hstore =>
          rw [Bool.and_eq_true, Bool.not_eq_true'] at hstore
          refine hnone (fun mi hmi' _ => ?_) h
          cases hmi.symm.trans hmi'
          rw [hstore.1]
          exact ⟨hstore.2, fun hmemory => nomatch hmemory⟩
        · next hmemory =>
          have hload : exInstr.mayLoad = memory := by
            revert hexecute hmemory
            cases memory <;> cases exInstr.mayLoad <;> simp
          obtain ⟨⟨m₀, alternatives⟩, hm, h⟩ := bind_eq_ok.mp h
          obtain ⟨_, _, h⟩ := bind_eq_ok.mp h
          obtain ⟨taken, htaken, h⟩ := bind_eq_ok.mp h
          have hself : Branches P T M ins2ctx memory ee s taken :=
            .flushes hmi hcontrol hload hm (.inl rfl) htaken
          split at h
          · obtain ⟨flushed, hflushed, h⟩ := bind_eq_ok.mp h
            cases h
            refine ⟨hself, fun alt halt => ?_⟩
            obtain ⟨v, hv, l, hl, halt⟩ := (mem_forEach hflushed).mp halt
            obtain ⟨m, hmem, rfl⟩ := List.mem_map.mp hv
            obtain ⟨w, hw, hl⟩ := bind_eq_ok.mp hl
            cases hl
            cases List.mem_singleton.mp halt
            exact .flushes hmi hcontrol hload hm (.inr hmem) hw
          · next hreturn =>
            have hreturn := Bool.eq_false_iff.mpr hreturn
            split at h
            · next hstrict =>
              obtain ⟨accessed, haccessed, h⟩ := bind_eq_ok.mp h
              cases h
              refine ⟨hself, fun alt halt => ?_⟩
              obtain ⟨v, hv, l, hl, halt⟩ := (mem_forEach haccessed).mp halt
              obtain ⟨m, hmem, rfl⟩ := List.mem_map.mp hv
              obtain ⟨w, hw, hl⟩ := bind_eq_ok.mp hl
              cases hl
              cases List.mem_singleton.mp halt
              exact .accesses hmi hcontrol hload hreturn hm hmem hstrict hw
            · next hstrict =>
              cases h
              refine ⟨hself, fun alt halt => ?_⟩
              obtain ⟨m, hmem, rfl⟩ := List.mem_map.mp halt
              exact .alternative hmi hcontrol hload hreturn hm hmem (Bool.eq_false_iff.mpr hstrict)
    · next hcontrol =>
      refine hnone (fun mi hmi' hcontrol' => ?_) h
      cases hmi.symm.trans hmi'
      exact absurd hcontrol' hcontrol

theorem leaveSpeculatively_frame {stages : List (Option ExecutionElement)} {fetchaddr : ℕ}
    (h : leaveSpeculatively P M s stages fetchaddr = .ok t) : ∃ memory, t = { s with memory } := by
  obtain ⟨next, _, h⟩ := bind_eq_ok.mp h
  cases h
  exact ⟨_, rfl⟩

/-- A flush concerns the memory and what was fetched. -/
theorem emptyPipelineDueToBranching_frame {oldPc : ℕ}
    (h : emptyPipelineDueToBranching P M s oldPc = .ok t) :
    ∃ memory, t = { s with memory, flushedFetchStage := true, ifId := none } := by
  obtain ⟨u, hu, h⟩ := bind_eq_ok.mp h
  cases h
  unfold leaveSpeculations at hu
  split at hu
  · obtain ⟨v, hv, hu⟩ := bind_eq_ok.mp hu
    have haccessed : ∃ memory, v = { s with memory } := by
      unfold leaveAccessed at hv
      split at hv
      · exact leaveSpeculatively_frame hv
      · cases hv
        exact ⟨_, rfl⟩
    have hfetched : ∃ memory, u = { v with memory } := by
      unfold leaveFetched at hu
      split at hu
      · exact leaveSpeculatively_frame hu
      · cases hu
        exact ⟨_, rfl⟩
    obtain ⟨_, rfl⟩ := haccessed
    obtain ⟨_, rfl⟩ := hfetched
    exact ⟨_, rfl⟩
  · cases hu
    exact ⟨_, rfl⟩

/-- The next access, if there is one. -/
theorem accessDataFromMemoryTopology_eq_ok {addrInfo : AddressInformation} {events : List DataEvent}
    (h : accessDataFromMemoryTopology P M addrInfo s = .ok (t, events)) :
    ∃ ee mi, s.exMem = some ee ∧ P.getMachineInstrByAddr ee.1 = some mi ∧
      (¬ (accessesMemory mi ∧ s.currMemoryAccess < addrInfo.getNumOfDataAccesses ee.1) ∧ t = s ∧
          events = [] ∨
        (accessesMemory mi ∧ s.currMemoryAccess < addrInfo.getNumOfDataAccesses ee.1) ∧
          ∃ addr accessType dataAccess memory,
            M.accessData s.memory addr accessType 1 = .ok (some dataAccess, memory) ∧
            t = { s with
              memory
              dataAccessIds := s.dataAccessIds.insert s.currMemoryAccess dataAccess
              currMemoryAccess := s.currMemoryAccess + 1 } ∧
            events = [.issued ee s.currMemoryAccess]) := by
  unfold accessDataFromMemoryTopology at h
  cases hee : s.exMem with
  | none =>
    rw [hee] at h
    cases h
  | some ee =>
    rw [hee] at h
    obtain ⟨mi, hmi, h⟩ := bind_eq_ok.mp h
    refine ⟨ee, mi, rfl, Program.instrAt_eq_ok.mp hmi, ?_⟩
    split at h
    · next hnext =>
      obtain ⟨⟨dataAccess, memory⟩, haccess, h⟩ := bind_eq_ok.mp h
      cases dataAccess with
      | none => cases h
      | some dataAccess =>
        cases h
        exact .inr ⟨hnext, _, _, dataAccess, memory, haccess, rfl, rfl⟩
    · next hnext =>
      cases h
      exact .inl ⟨hnext, rfl, rfl⟩

/-- The accesses concern the memory and what is noted about them only. -/
theorem accessData_frame {addrInfo : AddressInformation} {events : List DataEvent}
    (h : accessDataFromMemoryTopology P M addrInfo s = .ok (t, events)) :
    ∃ memory dataAccessIds currMemoryAccess,
      t = { s with memory, dataAccessIds, currMemoryAccess } := by
  obtain ⟨_, _, _, _, ⟨_, rfl, _⟩ | ⟨_, _, _, _, _, _, rfl, _⟩⟩ :=
    accessDataFromMemoryTopology_eq_ok h
  · exact ⟨_, _, _, rfl⟩
  · exact ⟨_, _, _, rfl⟩

theorem pollAccesses_frame {addrInfo : AddressInformation} {accesses : List (ℕ × ℕ)}
    {events : List DataEvent} (h : pollAccesses P M addrInfo ee accesses s = .ok (t, events)) :
    ∃ memory dataAccessIds currMemoryAccess,
      t = { s with memory, dataAccessIds, currMemoryAccess } := by
  induction accesses generalizing s events with
  | nil =>
    cases h
    exact ⟨_, _, _, rfl⟩
  | cons access accesses ih =>
    unfold pollAccesses at h
    split at h
    · obtain ⟨⟨u, issued⟩, hu, h⟩ := bind_eq_ok.mp h
      obtain ⟨⟨v, events'⟩, hv, h⟩ := bind_eq_ok.mp h
      cases h
      obtain ⟨_, _, _, rfl⟩ := accessData_frame hu
      obtain ⟨_, _, _, rfl⟩ := ih hv
      exact ⟨_, _, _, rfl⟩
    · obtain ⟨_, _, _, rfl⟩ := ih h
      exact ⟨_, _, _, rfl⟩

theorem finishAccesses_frame {addrInfo : AddressInformation} {mi : MachineInstr}
    {events : List DataEvent} (h : finishAccesses P M addrInfo ee mi s = .ok (t, events)) :
    ∃ memory dataAccessIds currMemoryAccess stallMemory,
      t = { s with memory, dataAccessIds, currMemoryAccess, stallMemory } := by
  unfold finishAccesses at h
  split at h
  · obtain ⟨⟨u, events'⟩, hu, h⟩ := bind_eq_ok.mp h
    cases h
    obtain ⟨_, _, _, rfl⟩ := pollAccesses_frame hu
    exact ⟨_, _, _, _, rfl⟩
  · cases h
    exact ⟨_, _, _, _, rfl⟩

/-- What accesses preserve of the memory. -/
theorem accessData_memory {I : μ → Prop} {addrInfo : AddressInformation} {events : List DataEvent}
    (haccess : ∀ m addr accessType id m', I m → M.accessData m addr accessType 1 = .ok (id, m') →
      I m') (hs : I s.memory)
    (h : accessDataFromMemoryTopology P M addrInfo s = .ok (t, events)) : I t.memory := by
  obtain ⟨_, _, _, _, ⟨_, rfl, _⟩ | ⟨_, _, _, _, _, hdata, rfl, _⟩⟩ :=
    accessDataFromMemoryTopology_eq_ok h
  · exact hs
  · exact haccess _ _ _ _ _ hs hdata

theorem pollAccesses_memory {I : μ → Prop} {addrInfo : AddressInformation}
    {accesses : List (ℕ × ℕ)} {events : List DataEvent}
    (hpoll : ∀ m id, I m → I (M.finishedDataAccess m id).2)
    (haccess : ∀ m addr accessType id m', I m → M.accessData m addr accessType 1 = .ok (id, m') →
      I m') (hs : I s.memory)
    (h : pollAccesses P M addrInfo ee accesses s = .ok (t, events)) : I t.memory := by
  induction accesses generalizing s events with
  | nil =>
    cases h
    exact hs
  | cons access accesses ih =>
    have hpolled := hpoll s.memory access.2 hs
    unfold pollAccesses at h
    split at h
    · next heq =>
      rw [heq] at hpolled
      obtain ⟨⟨u, issued⟩, hu, h⟩ := bind_eq_ok.mp h
      obtain ⟨⟨v, events'⟩, hv, h⟩ := bind_eq_ok.mp h
      cases h
      exact ih (accessData_memory haccess hpolled hu) hv
    · next heq =>
      rw [heq] at hpolled
      exact ih (s := { s with memory := _ }) hpolled h

theorem finishAccesses_memory {I : μ → Prop} {addrInfo : AddressInformation} {mi : MachineInstr}
    {events : List DataEvent} (hpoll : ∀ m id, I m → I (M.finishedDataAccess m id).2)
    (haccess : ∀ m addr accessType id m', I m → M.accessData m addr accessType 1 = .ok (id, m') →
      I m') (hs : I s.memory)
    (h : finishAccesses P M addrInfo ee mi s = .ok (t, events)) : I t.memory := by
  unfold finishAccesses at h
  split at h
  · obtain ⟨⟨u, events'⟩, hu, h⟩ := bind_eq_ok.mp h
    cases h
    have hpolled : I u.memory :=
      pollAccesses_memory (s := { s with stallMemory := true }) hpoll haccess hs hu
    exact hpolled
  · cases h
    exact hs

theorem memoryStage_of_leads {dep : StateDep} {result : InOrderPipelineState μ × List DataEvent}
    (h : Leads (processMemoryStage P T M dep) s result) :
    MemoryStage P T M dep s result.1 result.2 := by
  obtain ⟨results, h, hresult⟩ := h
  unfold processMemoryStage at h
  split at h
  · next hee =>
    cases h
    cases List.mem_singleton.mp hresult
    exact .empty hee
  · next ee hee =>
    obtain ⟨mi, hmi, h⟩ := bind_eq_ok.mp h
    obtain ⟨⟨u, events⟩, hu, h⟩ := bind_eq_ok.mp h
    obtain ⟨states, hstates, h⟩ := bind_eq_ok.mp h
    cases h
    obtain ⟨v, hv, rfl⟩ := List.mem_map.mp hresult
    have hmi := Program.instrAt_eq_ok.mp hmi
    unfold leaveMemoryStage at hstates
    split at hstates
    · next hstall =>
      cases hstates
      cases List.mem_singleton.mp hv
      refine .stays hee hmi hu ?_
      simpa [Option.isSome_iff_ne_none] using hstall
    · next hstall =>
      obtain ⟨interlock, _, hstates⟩ := bind_eq_ok.mp hstates
      obtain ⟨⟨w, branched⟩, hw, hstates⟩ := bind_eq_ok.mp hstates
      cases hstates
      simp only [Bool.or_eq_true, not_or, Bool.not_eq_true, Option.isSome_eq_false_iff,
        Option.isNone_iff_eq_none] at hstall
      have hex : u.exMem = some ee := by
        obtain ⟨_, _, _, _, rfl⟩ := finishAccesses_frame hu
        exact hee
      have hstage : (if true then u.exMem else u.idEx) = some ee := hex
      obtain ⟨hself, halt⟩ := branches_of_checkForBranches
        (s := { u with interlock, memWb := some ee }) hstage hw
      rcases List.mem_append.mp hv with hv | hv
      · obtain ⟨alt, hmem, rfl⟩ := List.mem_map.mp hv
        exact .leaves hee hmi hu hstall.1 hstall.2 hex (halt alt hmem)
      · cases List.mem_singleton.mp hv
        exact .leaves hee hmi hu hstall.1 hstall.2 hex hself

theorem executeStage_of_leads {dep : StateDep} {result : InOrderPipelineState μ × List DataEvent}
    (h : Leads (processExecuteStage P T M dep) s result) :
    ExecuteStage P T M dep s result.1 result.2 := by
  obtain ⟨results, h, hresult⟩ := h
  unfold processExecuteStage at h
  split at h
  · next ee hee hinterlock =>
    obtain ⟨_, _, h⟩ := bind_eq_ok.mp h
    obtain ⟨_, _, h⟩ := bind_eq_ok.mp h
    obtain ⟨finished, hfinished, h⟩ := bind_eq_ok.mp h
    cases h
    rcases List.mem_append.mp hresult with hresult | hresult
    · unfold finishExecution at hfinished
      split at hfinished
      · cases hfinished
        exact nomatch hresult
      · split at hfinished
        · next hnone =>
          obtain ⟨_, _, hfinished⟩ := bind_eq_ok.mp hfinished
          cases hfinished
          cases List.mem_singleton.mp hresult
          refine .ends hee ?_
          simpa [Program.hasMachineInstrByAddr] using hnone
        · split at hfinished
          · next hroom =>
            obtain ⟨⟨t, events⟩, ht, hfinished⟩ := bind_eq_ok.mp hfinished
            obtain ⟨⟨u, branched⟩, hu, hfinished⟩ := bind_eq_ok.mp hfinished
            cases hfinished
            obtain ⟨alt, hmem, rfl⟩ := List.mem_map.mp hresult
            have hex : t.idEx = some ee := by
              obtain ⟨_, _, _, rfl⟩ := accessData_frame ht
              exact hee
            have hstage : (if false then t.exMem else t.idEx) = some ee := hex
            obtain ⟨hself, halt⟩ := branches_of_checkForBranches hstage hu
            have hroom := Option.isNone_iff_eq_none.mp hroom
            rcases List.mem_append.mp hmem with hmem | hmem
            · exact .leaves hee hroom ht (halt alt hmem)
            · cases List.mem_singleton.mp hmem
              exact .leaves hee hroom ht hself
          · cases hfinished
            cases List.mem_singleton.mp hresult
            exact .continues hee (List.cons_ne_nil 0 [])
    · split at hresult
      · exact nomatch hresult
      · next hlonger =>
        cases List.mem_singleton.mp hresult
        exact .continues hee (by simpa using hlonger)
  · next hwaits =>
    obtain ⟨_, _, h⟩ := bind_eq_ok.mp h
    cases h
    cases List.mem_singleton.mp hresult
    refine .waits ?_
    cases hee : s.idEx with
    | none => exact .inl rfl
    | some ee =>
      right
      by_contra hinterlock
      exact hwaits ee hee (Bool.eq_false_iff.mpr hinterlock)

theorem decodeStage_of_eq_ok (h : processInstructionDecodeStage P s = .ok t) :
    DecodeStage P s t := by
  unfold processInstructionDecodeStage at h
  split at h
  · next ee hee hroom =>
    split at h
    · next mi hmi =>
      split at h
      · next times htimes =>
        cases h
        exact .decodes hee hroom hmi htimes
      · cases h
    · next hmi =>
      cases h
      exact .ends hee hroom hmi
  · next hwaits =>
    cases h
    refine .waits ?_
    cases hee : s.ifId with
    | none => exact .inl rfl
    | some ee => exact .inr fun hroom => hwaits ee hee hroom

theorem pollFetch_frame (s : InOrderPipelineState μ) :
    ∃ memory instructionAccessFinished instructionAccessId, pollFetch M s =
      { s with memory, instructionAccessFinished, instructionAccessId } := by
  unfold pollFetch
  split
  · exact ⟨_, _, _, rfl⟩
  · split <;> exact ⟨_, _, _, rfl⟩

theorem fetchStage_of_eq_ok (h : processInstructionFetchStage P T M s = .ok t) :
    FetchStage P T M s t := by
  unfold processInstructionFetchStage at h
  split at h
  · next hflushed => exact .restarts hflushed h
  · next hflushed =>
    have hflushed := Bool.eq_false_iff.mpr hflushed
    have hsame : (pollFetch M s).ifId = s.ifId := by
      obtain ⟨_, _, _, heq⟩ := pollFetch_frame (M := M) s
      rw [heq]
    dsimp only at h
    split at h
    · next hroom =>
      rw [hsame, Bool.and_eq_true, Option.isNone_iff_eq_none] at hroom
      exact .fetches hflushed hroom.1 hroom.2 h
    · next hroom =>
      cases h
      refine .waits hflushed ?_
      rw [hsame] at hroom
      cases hifId : s.ifId <;> simp_all

theorem fastForwardAndInsert_forwards {origin : InOrderPipelineState μ}
    (h : Leads (fastForwardAndInsert P M origin) s t) :
    ∃ memory, Forwards M s.memory memory ∧ t = { s with memory } := by
  obtain ⟨l, h, ht⟩ := h
  obtain ⟨converged, _, h⟩ := bind_eq_ok.mp h
  cases converged with
  | true =>
    obtain ⟨memories, hmemories, h⟩ := bind_eq_ok.mp h
    cases h
    obtain ⟨memory, hmemory, rfl⟩ := List.mem_map.mp ht
    exact ⟨memory, .inr ⟨memories, hmemories, hmemory⟩, rfl⟩
  | false =>
    cases h
    cases List.mem_singleton.mp ht
    exact ⟨s.memory, .inl rfl, rfl⟩

theorem memoryCycles_of_leads (h : Leads (cycleMemoryTopology P T M) s t) :
    ∃ memory, MemoryCycles M s.memory memory ∧ t = { s with memory } := by
  obtain ⟨l, h, ht⟩ := h
  obtain ⟨⟨pending, polled⟩, hpolled, h⟩ := bind_eq_ok.mp h
  obtain ⟨memories, hmemories, h⟩ := bind_eq_ok.mp h
  cases h
  obtain ⟨memory, hmemory, rfl⟩ := List.mem_map.mp ht
  refine ⟨memory, ⟨pending, polled, ?_, memories, hmemories, hmemory⟩, rfl⟩
  unfold potentialDataMissesPending at hpolled
  split at hpolled
  · obtain ⟨_, _, hpolled⟩ := bind_eq_ok.mp hpolled
    obtain ⟨_, _, hpolled⟩ := bind_eq_ok.mp hpolled
    split at hpolled
    · cases hpolled
      exact .inr ⟨_, rfl⟩
    · cases hpolled
      exact .inl rfl
  · cases hpolled
    exact .inl rfl

theorem cycles_of_observedCycle {dep : StateDep} {result : InOrderPipelineState μ × InOrderLog}
    (h : Leads (observedCycle P T M dep) s result) : Cycles P T M dep s result.1 result.2 := by
  obtain ⟨results, h, hresult⟩ := h
  obtain ⟨succs, hsuccs, h⟩ := bind_eq_ok.mp h
  obtain ⟨t, ht, l, hl, hmem⟩ := (mem_forEach h).mp hresult
  obtain ⟨memory, hmemory, rfl⟩ := memoryCycles_of_leads ⟨succs, hsuccs, ht⟩
  obtain ⟨_, hfinal, hl⟩ := bind_eq_ok.mp hl
  have hfinal : s.wbFin = none := Option.isNone_iff_eq_none.mp (of_assertThat hfinal)
  split at hl
  · next hstall =>
    obtain ⟨forwarded, hforwarded, hl⟩ := bind_eq_ok.mp hl
    cases hl
    obtain ⟨u, hu, rfl⟩ := List.mem_map.mp hmem
    obtain ⟨memory', hforward, rfl⟩ := fastForwardAndInsert_forwards ⟨forwarded, hforwarded, hu⟩
    exact .stalls hmemory hfinal hstall hforward
  · next hstall =>
    obtain ⟨memSuccs, hmemSuccs, hl⟩ := bind_eq_ok.mp hl
    obtain ⟨⟨t, events⟩, ht, l', hl', hmem⟩ := (mem_forEach hl).mp hmem
    obtain ⟨execSuccs, hexecSuccs, hl'⟩ := bind_eq_ok.mp hl'
    obtain ⟨⟨u, events'⟩, hu, l'', hl'', hmem⟩ := (mem_forEach hl').mp hmem
    obtain ⟨v, hv, hl''⟩ := bind_eq_ok.mp hl''
    obtain ⟨w, hw, hl''⟩ := bind_eq_ok.mp hl''
    obtain ⟨forwarded, hforwarded, hl''⟩ := bind_eq_ok.mp hl''
    cases hl''
    obtain ⟨x, hx, rfl⟩ := List.mem_map.mp hmem
    obtain ⟨memory', hforward, rfl⟩ := fastForwardAndInsert_forwards ⟨forwarded, hforwarded, hx⟩
    exact .runs hmemory hfinal (Bool.eq_false_iff.mpr hstall)
      (memoryStage_of_leads ⟨memSuccs, hmemSuccs, ht⟩)
      (executeStage_of_leads ⟨execSuccs, hexecSuccs, hu⟩) (decodeStage_of_eq_ok hv)
      (fetchStage_of_eq_ok hw) hforward

end Inversion

end Llvmta.MicroArch.InOrderPipelineState
