import Llvmta.Library.CheckedFold
import Llvmta.Memory.FixedLatencyCyclingMemory
import Llvmta.Memory.SingleMemoryTopology
import Llvmta.MicroarchitecturalAnalysis.OutOfOrderPipelineState

/-!
# Cycles of the out-of-order pipeline

What a cycle can do, as the phases that follow each other: the memory, the functional
units, the other components, the effects of the committed instructions, and a
fast-forward. Every invariant of the pipeline is preserved by each phase.
-/

namespace Llvmta

open Checked

namespace MicroArch

/-- A memory may be fast-forwarded. -/
def Forwards {μ : Type} (M : MemoryTopology μ) (memory memory' : μ) : Prop :=
  memory' = memory ∨ Leads M.fastForward memory memory'

namespace OutOfOrderPipelineState

variable (P : Program) {μ : Type} (M : MemoryTopology μ)

/-- The state after the memory was cycled. -/
def started (s : OutOfOrderPipelineState μ) (memory : μ) : OutOfOrderPipelineState μ :=
  { s with time := s.time.add (.ofValue 1), commonDataBus := none, memory }

/-- The state where an entrance of the committed element is not speculative any longer. -/
def commits (s : OutOfOrderPipelineState μ) (fi : ExecutionElement) : OutOfOrderPipelineState μ :=
  if P.needPersistenceScopes then
    { s with speculativeScopeEntrances := commitEntrance fi s.speculativeScopeEntrances }
  else s

/-- The scopes that are left behind the committed instructions, if scopes are needed. -/
def closes (s : OutOfOrderPipelineState μ) (tempFi : List ExecutionElement) :
    OutOfOrderPipelineState μ :=
  if P.needPersistenceScopes then closeScopes P M s tempFi else s

/-- One of the states after the control-flow instruction. -/
def BranchesTo (ins2ctx : InstrContextMapping) (s : OutOfOrderPipelineState μ)
    (ee : ExecutionElement) (m : MicroArchitecturalState) : Prop :=
  ∃ m₀ alternatives, s.handleBranching P ee ins2ctx = .ok (m₀, alternatives) ∧
    (m = m₀ ∨ m ∈ alternatives)

/-- One of these states that is not the one the pipeline itself goes on with. -/
def IsAlternative (ins2ctx : InstrContextMapping) (s : OutOfOrderPipelineState μ)
    (ee : ExecutionElement) (m : MicroArchitecturalState) : Prop :=
  ∃ m₀ alternatives, s.handleBranching P ee ins2ctx = .ok (m₀, alternatives) ∧ m ∈ alternatives

/-- The functional units are cycled one after the other. -/
inductive UnitsCycle (addrInfo : AddressInformation) :
    List ℕ → OutOfOrderPipelineState μ → OutOfOrderPipelineState μ → Prop
  | nil {s : OutOfOrderPipelineState μ} : UnitsCycle addrInfo [] s s
  | cons {i : ℕ} {is : List ℕ} {s t u : OutOfOrderPipelineState μ}
    (h : Leads (cycleFuncUnit P M addrInfo i) s t) (hu : UnitsCycle addrInfo is t u) :
    UnitsCycle addrInfo (i :: is) s u

/-- What follows from the committed instructions; the flag tells whether the pipeline was
flushed. -/
inductive Handles (ins2ctx : InstrContextMapping) : List ExecutionElement →
    OutOfOrderPipelineState μ → OutOfOrderPipelineState μ → Bool → Prop
  | nil {s : OutOfOrderPipelineState μ} : Handles ins2ctx [] s s false
  | plain {fi : ExecutionElement} {fis : List ExecutionElement} {mi : MachineInstr}
    {s w : OutOfOrderPipelineState μ} {flushed : Bool}
    (hmi : P.getMachineInstrByAddr fi.1 = some mi) (hplain : changesControlFlow mi = false)
    (hw : Handles ins2ctx fis (commits P s fi) w flushed) : Handles ins2ctx (fi :: fis) s w flushed
  | branch {fi : ExecutionElement} {fis : List ExecutionElement} {mi : MachineInstr}
    {s t w : OutOfOrderPipelineState μ} {m : MicroArchitecturalState} {flushed : Bool}
    (hmi : P.getMachineInstrByAddr fi.1 = some mi) (hcontrol : changesControlFlow mi = true)
    (hm : BranchesTo P ins2ctx (commits P s fi) fi m)
    (ht : emptyPipeline P M { commits P s fi with toMicroArchitecturalState := m } fi.1 = .ok t)
    (hw : Handles ins2ctx fis t w flushed) : Handles ins2ctx (fi :: fis) s w true
  | flushedAlternative {fi : ExecutionElement} {fis : List ExecutionElement} {mi : MachineInstr}
    {s w : OutOfOrderPipelineState μ} {m : MicroArchitecturalState}
    (hmi : P.getMachineInstrByAddr fi.1 = some mi) (hcontrol : changesControlFlow mi = true)
    (hm : BranchesTo P ins2ctx (commits P s fi) fi m)
    (hw : emptyPipeline P M { commits P s fi with toMicroArchitecturalState := m } fi.1 = .ok w) :
    Handles ins2ctx (fi :: fis) s w true
  | alternative {fi : ExecutionElement} {fis : List ExecutionElement} {mi : MachineInstr}
    {s : OutOfOrderPipelineState μ} {m : MicroArchitecturalState}
    (hmi : P.getMachineInstrByAddr fi.1 = some mi) (hcontrol : changesControlFlow mi = true)
    (hm : IsAlternative P ins2ctx (commits P s fi) fi m)
    (hreturn : (mi.isReturn || mi.isJumpTableBranch) = false) :
    Handles ins2ctx (fi :: fis) s { commits P s fi with toMicroArchitecturalState := m } false

/-- What filling the queue does: nothing, if there is no room or fetching has stopped; a
look at the memory; or the fetch of an element, behind which fetching stops or goes on. -/
inductive Fills (ins2ctx : InstrContextMapping) (s : OutOfOrderPipelineState μ) :
    OutOfOrderPipelineState μ → List ExecutionElement → Prop
  | skips (h : ¬ (s.instructionQueue.queue.length < 4 ∧ s.instructionQueue.stallFetch = false)) :
    Fills ins2ctx s s []
  | waits {memory : μ} (hfetch : s.instructionQueue.stallFetch = false)
    (hpoll : M.finishedInstrAccess s.memory s.instructionQueue.instrAccessId = (false, memory)) :
    Fills ins2ctx s { s with memory } []
  | ends {memory : μ} {pc : ExecutionElement} (hfetch : s.instructionQueue.stallFetch = false)
    (hpoll : M.finishedInstrAccess s.memory s.instructionQueue.instrAccessId = (true, memory))
    (hpc : P.fetchNext s.pc = .ok pc) (hmi : P.getMachineInstrByAddr s.pc.1 = none) :
    Fills ins2ctx s
      { s with memory, pc, instructionQueue := { s.instructionQueue with stallFetch := true } } []
  | stops {memory : μ} {pc : ExecutionElement} {mi : MachineInstr} {u : OutOfOrderPipelineState μ}
    (hroom : s.instructionQueue.queue.length < 4) (hfetch : s.instructionQueue.stallFetch = false)
    (hpoll : M.finishedInstrAccess s.memory s.instructionQueue.instrAccessId = (true, memory))
    (hpc : P.fetchNext s.pc = .ok pc) (hmi : P.getMachineInstrByAddr s.pc.1 = some mi)
    (hu : branchEarly P { s with
      memory, pc
      instructionQueue := { s.instructionQueue with
        queue := s.instructionQueue.queue ++ [s.pc] } } s.pc mi ins2ctx = .ok u)
    (hstops : (mi.isReturn || mi.isJumpTableBranch) = true) :
    Fills ins2ctx s
      { u with instructionQueue := { u.instructionQueue with stallFetch := true } } [s.pc]
  | continues {memory : μ} {pc : ExecutionElement} {mi : MachineInstr} {message : String}
    {u v t : OutOfOrderPipelineState μ}
    (hroom : s.instructionQueue.queue.length < 4) (hfetch : s.instructionQueue.stallFetch = false)
    (hpoll : M.finishedInstrAccess s.memory s.instructionQueue.instrAccessId = (true, memory))
    (hpc : P.fetchNext s.pc = .ok pc) (hmi : P.getMachineInstrByAddr s.pc.1 = some mi)
    (hu : branchEarly P { s with
      memory, pc
      instructionQueue := { s.instructionQueue with
        queue := s.instructionQueue.queue ++ [s.pc] } } s.pc mi ins2ctx = .ok u)
    (hcontinues : (mi.isReturn || mi.isJumpTableBranch) = false)
    (hv : enterScopesFrom P M u s.pc.1 = .ok v) (ht : startAccess M v message = .ok t) :
    Fills ins2ctx s t [s.pc]

/-- What a cycle leads to. -/
inductive Cycles (dep : StateDep) (s : OutOfOrderPipelineState μ) :
    OutOfOrderPipelineState μ → CycleLog → Prop
  | stalls {memory memory' : μ} (hmemory : Leads (M.cycle false) s.memory memory)
    (hstall : M.shouldPipelineStall memory = true) (hforward : Forwards M memory memory') :
    Cycles dep s { started s memory with memory := memory' } ⟨[], [], [], false⟩
  | runs {memory memory' : μ} {u v w : OutOfOrderPipelineState μ}
    {fetched tempFi : List ExecutionElement} {flushed : Bool}
    (hmemory : Leads (M.cycle false) s.memory memory)
    (hstall : M.shouldPipelineStall memory = false)
    (hu : UnitsCycle P M dep.addrInfo (List.range s.funcUnits.length) (started s memory) u)
    (hv : cycleComponents P M dep.ins2ctx u = .ok (v, fetched, tempFi))
    (hw : Handles P M dep.ins2ctx tempFi v w flushed) (hforward : Forwards M w.memory memory') :
    Cycles dep s (closes P M { w with memory := memory' } tempFi)
      ⟨fetched, tempFi, v.inFlight ++ v.nextFetch, flushed⟩

variable {P M} {s s' t : OutOfOrderPipelineState μ}

section Inversion

theorem startAccess_eq_ok {message : String} (h : startAccess M s message = .ok s') :
    ∃ id memory, M.accessInstr s.memory s.pc.1 1 = .ok (some id, memory) ∧
      s' = { s with memory, instructionQueue := { s.instructionQueue with instrAccessId := id } } := by
  obtain ⟨⟨id, memory⟩, haccess, h⟩ := bind_eq_ok.mp h
  cases id with
  | none => cases h
  | some id =>
    cases h
    exact ⟨id, memory, haccess, rfl⟩

/-- The new entrances and the memory, if scopes are entered. -/
theorem enterScopesFrom_eq_ok {source : ℕ} (h : enterScopesFrom P M s source = .ok s') :
    s' = s ∨ ∃ scopes entrances, scopes ≠ [] ∧ P.needPersistenceScopes = true ∧
      scopes = P.scopesBetween P.getEnteringScopes source s.pc.1 ∧
      enterSpeculatively s.pc scopes s.speculativeScopeEntrances = .ok entrances ∧
      s' = { s with
        speculativeScopeEntrances := entrances, memory := M.enterScopes s.memory scopes } := by
  unfold enterScopesFrom at h
  dsimp only at h
  split at h
  · next hscopes =>
    obtain ⟨entrances, hentrances, h⟩ := bind_eq_ok.mp h
    cases h
    exact .inr ⟨_, entrances, hscopes.2, hscopes.1, rfl, hentrances, rfl⟩
  · cases h
    exact .inl rfl

/-- The end of an entrance concerns the entrances only. -/
theorem commits_eq (s : OutOfOrderPipelineState μ) (fi : ExecutionElement) :
    ∃ entrances, commits P s fi = { s with speculativeScopeEntrances := entrances } := by
  unfold commits
  split_ifs
  · exact ⟨_, rfl⟩
  · exact ⟨s.speculativeScopeEntrances, rfl⟩

/-- A functional unit is replaced, which may put its instruction onto the bus. -/
theorem cycleFuncUnit_cases {addrInfo : AddressInformation} {i : ℕ}
    (h : Leads (cycleFuncUnit P M addrInfo i) s t) :
    ∃ fu fu' memory, s.funcUnits[i]? = some fu ∧
      fu.Cycles P M s.reOrderBuffer addrInfo s.memory fu' memory ∧
      t = broadcast { s with memory } i fu' := by
  obtain ⟨l, h, ht⟩ := h
  obtain ⟨fu, hfu, h⟩ := bind_eq_ok.mp h
  obtain ⟨results, hresults, h⟩ := bind_eq_ok.mp h
  cases h
  obtain ⟨⟨fu', memory⟩, hmem, rfl⟩ := List.mem_map.mp ht
  exact ⟨fu, fu', memory, getElem?_of_read hfu, FunctionalUnit.cycles_of_cycle hresults hmem, rfl⟩

/-- The broadcast concerns the units and the bus only. -/
theorem broadcast_eq (s : OutOfOrderPipelineState μ) (i : ℕ) (fu : FunctionalUnit) :
    ∃ fu' bus, broadcast s i fu =
        { s with funcUnits := s.funcUnits.set i fu', commonDataBus := bus } ∧
      (fu' = fu ∧ bus = s.commonDataBus ∨ ∃ tag, fu.finishedInstruction = some tag ∧
        s.commonDataBus = none ∧ fu' = { fu with finishedInstruction := none } ∧
        bus = some tag) := by
  unfold broadcast
  split
  · next tag hfinished hbus => exact ⟨_, _, rfl, .inr ⟨tag, hfinished, hbus, rfl, rfl⟩⟩
  · exact ⟨fu, s.commonDataBus, rfl, .inl ⟨rfl, rfl⟩⟩

/-- The element is removed from the queue and gets a slot and a place in a station. -/
theorem issueTo_eq_ok {ee : ExecutionElement} {mi : MachineInstr} {k : ℕ}
    (h : issueTo P s ee mi k = .ok s') :
    ∃ reOrderBuffer regStatTabl robTag rS rS' queue,
      s.reOrderBuffer.issueInstruction P s.regStatTabl ee =
        .ok (reOrderBuffer, regStatTabl, robTag) ∧
      s.resStations[k]? = some rS ∧ rS.issueInstruction robTag (s.sourcesOf mi) = .ok rS' ∧
      s.instructionQueue.queue = ee :: queue ∧
      s' = { s with
        reOrderBuffer, regStatTabl, resStations := s.resStations.set k rS'
        instructionQueue := { s.instructionQueue with queue } } := by
  obtain ⟨⟨reOrderBuffer, regStatTabl, robTag⟩, hissue, h⟩ := bind_eq_ok.mp h
  obtain ⟨rS, hrS, h⟩ := bind_eq_ok.mp h
  obtain ⟨rS', hrS', h⟩ := bind_eq_ok.mp h
  obtain ⟨front, hfront, h⟩ := bind_eq_ok.mp h
  obtain ⟨_, heq, h⟩ := bind_eq_ok.mp h
  cases h
  have hfront : s.instructionQueue.queue[0]? = some front := getElem?_of_read hfront
  have heq : front = ee := of_decide_eq_true (of_assertThat heq)
  cases hqueue : s.instructionQueue.queue with
  | nil =>
    rw [hqueue] at hfront
    cases hfront
  | cons front' queue =>
    rw [hqueue] at hfront
    cases hfront
    subst heq
    exact ⟨_, _, _, rS, rS', queue, hissue, getElem?_of_read hrS, hrS', rfl, rfl⟩

/-- What issuing to a station preserves is preserved by the two loops over the stations. -/
theorem tryIssueInstr_invariant {I : OutOfOrderPipelineState μ → Prop}
    (hissue : ∀ s s' ee mi k, P.getMachineInstrByAddr ee.1 = some mi →
      s.resStations[k]?.any (s.accepts mi) = true → I s → issueTo P s ee mi k = .ok s' → I s')
    (hs : I s) (h : tryIssueInstr P s = .ok s') : I s' := by
  unfold tryIssueInstr at h
  split at h
  · cases h
    exact hs
  · next ee _ _ =>
    obtain ⟨mi, hmi, h⟩ := bind_eq_ok.mp h
    split at h
    · cases h
      exact hs
    · refine foldlM_invariant (H := I) ?_ hs h
      intro t j t' _ ht hround
      unfold issueRound at hround
      split at hround
      · unfold issueToFirst at hround
        split at hround
        · next k hk =>
          apply hissue t t' ee mi k (Program.instrAt_eq_ok.mp hmi) _ ht hround
          obtain ⟨hlt, haccepts, _⟩ := List.findIdx?_eq_some_iff_getElem.mp hk
          rw [List.getElem?_eq_getElem hlt]
          exact haccepts
        · cases hround
          exact ht
      · cases hround
        exact ht

/-- Early branches change the superclass only. -/
theorem branchEarly_eq_ok {ee : ExecutionElement} {mi : MachineInstr}
    {ins2ctx : InstrContextMapping} (h : branchEarly P s ee mi ins2ctx = .ok s') :
    s' = { s with toMicroArchitecturalState := s'.toMicroArchitecturalState } := by
  unfold branchEarly at h
  split at h
  · obtain ⟨_, _, h⟩ := bind_eq_ok.mp h
    obtain ⟨_, _, h⟩ := bind_eq_ok.mp h
    cases h
    rfl
  · cases h
    rfl

theorem fills_of_fillQueue {ins2ctx : InstrContextMapping} {fetched : List ExecutionElement}
    (h : fillQueue P M s ins2ctx = .ok (t, fetched)) : Fills P M ins2ctx s t fetched := by
  unfold fillQueue at h
  split at h
  · next hroom =>
    obtain ⟨hroom, hfetch⟩ := hroom
    cases hpoll : M.finishedInstrAccess s.memory s.instructionQueue.instrAccessId with
    | mk finished memory =>
      simp only [hpoll] at h
      cases finished with
      | false =>
        cases h
        exact .waits hfetch hpoll
      | true =>
        obtain ⟨pc, hpc, h⟩ := bind_eq_ok.mp h
        dsimp only at hpc h
        split at h
        · next mi hmi =>
          obtain ⟨u, hu, h⟩ := bind_eq_ok.mp h
          cases h
          obtain ⟨_, _, hu⟩ := bind_eq_ok.mp hu
          obtain ⟨v, hv, hu⟩ := bind_eq_ok.mp hu
          split at hu
          · next hstops =>
            cases hu
            exact .stops hroom hfetch hpoll hpc hmi hv hstops
          · next hstops =>
            obtain ⟨w, hw, ht⟩ := bind_eq_ok.mp hu
            exact .continues hroom hfetch hpoll hpc hmi hv (Bool.eq_false_iff.mpr hstops) hw ht
        · next hmi =>
          cases h
          exact .ends hfetch hpoll hpc hmi
  · next hroom =>
    cases h
    exact .skips hroom

/-- The components other than memory and units in turn. -/
theorem cycleComponents_eq_ok {ins2ctx : InstrContextMapping}
    {fetched tempFi : List ExecutionElement}
    (h : cycleComponents P M ins2ctx s = .ok (t, fetched, tempFi)) :
    ∃ funcUnits resStations reOrderBuffer regStatTabl u,
      ReservationStation.cycleAll P s.reOrderBuffer s.commonDataBus s.funcUnits s.resStations =
        .ok (funcUnits, resStations) ∧
      s.reOrderBuffer.cycle P s.regStatTabl s.commonDataBus =
        .ok (reOrderBuffer, regStatTabl, tempFi) ∧
      tryIssueInstr P { s with
        funcUnits, resStations, reOrderBuffer, regStatTabl
        finalInstructions := s.finalInstructions ++ tempFi } = .ok u ∧
      Fills P M ins2ctx u t fetched := by
  obtain ⟨⟨funcUnits, resStations⟩, hstations, h⟩ := bind_eq_ok.mp h
  obtain ⟨⟨reOrderBuffer, regStatTabl, fis⟩, hrob, h⟩ := bind_eq_ok.mp h
  obtain ⟨u, hu, h⟩ := bind_eq_ok.mp h
  obtain ⟨⟨v, fetched'⟩, hv, h⟩ := bind_eq_ok.mp h
  cases h
  exact ⟨funcUnits, resStations, reOrderBuffer, regStatTabl, u, hstations, hrob, hu,
    fills_of_fillQueue hv⟩

/-- The queue starts over at the program counter. -/
theorem flushQueue_eq_ok {committedInstr : ℕ} (h : flushQueue P M s committedInstr = .ok s') :
    ∃ t id memory,
      enterScopesFrom P M { s with instructionQueue := { s.instructionQueue with queue := [] } }
        committedInstr = .ok t ∧
      M.accessInstr t.memory t.pc.1 1 = .ok (some id, memory) ∧
      s' = { t with
        memory, instructionQueue := ⟨t.instructionQueue.queue, id, false⟩ } := by
  obtain ⟨t, ht, h⟩ := bind_eq_ok.mp h
  obtain ⟨u, hu, h⟩ := bind_eq_ok.mp h
  cases h
  obtain ⟨id, memory, haccess, rfl⟩ := startAccess_eq_ok hu
  exact ⟨t, id, memory, ht, haccess, rfl⟩

/-- Everything but memory, program counter and final instructions is empty after a flush. -/
theorem emptyPipeline_eq_ok {committedInstr : ℕ}
    (h : emptyPipeline P M s committedInstr = .ok s') :
    ∃ left t reOrderBuffer,
      left = (if P.needPersistenceScopes then
        { s with
          memory := leaveEntrances M s.memory s.speculativeScopeEntrances
          speculativeScopeEntrances := [] }
        else s) ∧
      flushQueue P M left committedInstr = .ok t ∧ t.reOrderBuffer.flush = .ok reOrderBuffer ∧
      s' = { t with
        reOrderBuffer
        resStations := t.resStations.map ReservationStation.flush
        commonDataBus := none
        regStatTabl := .new
        funcUnits := t.funcUnits.map FunctionalUnit.flush } := by
  obtain ⟨t, ht, h⟩ := bind_eq_ok.mp h
  obtain ⟨reOrderBuffer, hflush, h⟩ := bind_eq_ok.mp h
  cases h
  exact ⟨_, t, reOrderBuffer, rfl, ht, hflush, rfl⟩

theorem fastForwardAndInsert_forwards {origin : OutOfOrderPipelineState μ}
    (h : Leads (fastForwardAndInsert P M origin) s t) :
    ∃ memory, Forwards M s.memory memory ∧ t = { s with memory } := by
  obtain ⟨l, h, ht⟩ := h
  obtain ⟨converged, _, h⟩ := bind_eq_ok.mp h
  cases converged with
  | true =>
    obtain ⟨memories, hmemories, h⟩ := bind_eq_ok.mp h
    cases h
    obtain ⟨memory, hmemory, rfl⟩ := List.mem_map.mp ht
    exact ⟨memory, .inr ⟨memories, hmemories, hmemory⟩, rfl⟩
  | false =>
    cases h
    cases List.mem_singleton.mp ht
    exact ⟨s.memory, .inl rfl, rfl⟩

theorem unitsCycle_of_cycleFuncUnits {addrInfo : AddressInformation} {is : List ℕ}
    {states states' : List (OutOfOrderPipelineState μ)}
    (h : cycleFuncUnits P M addrInfo is states = .ok states') (ht : t ∈ states') :
    ∃ s ∈ states, UnitsCycle P M addrInfo is s t := by
  induction is generalizing states with
  | nil =>
    cases h
    exact ⟨t, ht, .nil⟩
  | cons i is ih =>
    obtain ⟨middle, hmiddle, h⟩ := bind_eq_ok.mp h
    obtain ⟨u, hu, hcycle⟩ := ih h
    obtain ⟨s, hs, hlead⟩ := (mem_forEach hmiddle).mp hu
    exact ⟨s, hs, .cons hlead hcycle⟩

theorem IsAlternative.branchesTo {ins2ctx : InstrContextMapping} {ee : ExecutionElement}
    {m : MicroArchitecturalState} (h : IsAlternative P ins2ctx s ee m) :
    BranchesTo P ins2ctx s ee m := by
  obtain ⟨m₀, alternatives, hm₀, hm⟩ := h
  exact ⟨m₀, alternatives, hm₀, .inr hm⟩

/-- Whether a committed instruction flushes, and what it leads to. -/
theorem checkForBranches_eq_ok {ins2ctx : InstrContextMapping} {ee : ExecutionElement}
    {flushes : Bool} {alternatives : List (OutOfOrderPipelineState μ × Bool)}
    (h : checkForBranches P M s ee ins2ctx = .ok ((t, flushes), alternatives)) :
    ∃ mi, P.getMachineInstrByAddr ee.1 = some mi ∧
      (changesControlFlow mi = false ∧ t = s ∧ flushes = false ∧ alternatives = [] ∨
      changesControlFlow mi = true ∧ flushes = true ∧
        (∃ m, BranchesTo P ins2ctx s ee m ∧
          emptyPipeline P M { s with toMicroArchitecturalState := m } ee.1 = .ok t) ∧
        ∀ alt ∈ alternatives, ∃ m, IsAlternative P ins2ctx s ee m ∧
          (alt.2 = true ∧
              emptyPipeline P M { s with toMicroArchitecturalState := m } ee.1 = .ok alt.1 ∨
            alt.2 = false ∧ (mi.isReturn || mi.isJumpTableBranch) = false ∧
              alt.1 = { s with toMicroArchitecturalState := m })) := by
  obtain ⟨mi, hmi, h⟩ := bind_eq_ok.mp h
  refine ⟨mi, Program.instrAt_eq_ok.mp hmi, ?_⟩
  split at h
  · next hcontrol =>
    obtain ⟨⟨m, ms⟩, hm, h⟩ := bind_eq_ok.mp h
    obtain ⟨u, hu, h⟩ := bind_eq_ok.mp h
    right
    have hself : BranchesTo P ins2ctx s ee m := ⟨m, ms, hm, .inl rfl⟩
    have halt {m' : MicroArchitecturalState} (h : m' ∈ ms) : IsAlternative P ins2ctx s ee m' :=
      ⟨m, ms, hm, h⟩
    split at h
    · obtain ⟨flushed, hflushed, h⟩ := bind_eq_ok.mp h
      cases h
      refine ⟨hcontrol, rfl, ⟨m, hself, hu⟩, fun alt hmem => ?_⟩
      obtain ⟨v, hv, l, hl, halt'⟩ := (mem_forEach hflushed).mp hmem
      obtain ⟨m', hm', rfl⟩ := List.mem_map.mp hv
      obtain ⟨w, hw, hl⟩ := bind_eq_ok.mp hl
      cases hl
      cases List.mem_singleton.mp halt'
      exact ⟨m', halt hm', .inl ⟨rfl, hw⟩⟩
    · next hreturn =>
      cases h
      refine ⟨hcontrol, rfl, ⟨m, hself, hu⟩, fun alt hmem => ?_⟩
      obtain ⟨v, hv, rfl⟩ := List.mem_map.mp hmem
      obtain ⟨m', hm', rfl⟩ := List.mem_map.mp hv
      exact ⟨m', halt hm', .inr ⟨rfl, Bool.eq_false_iff.mpr hreturn, rfl⟩⟩
  · next hplain =>
    cases h
    exact .inl ⟨Bool.eq_false_iff.mpr hplain, rfl, rfl, rfl⟩

theorem handles_of_handleFinal {ins2ctx : InstrContextMapping} {fis : List ExecutionElement}
    {flushed : Bool} {results : List (OutOfOrderPipelineState μ × Bool)}
    {result : OutOfOrderPipelineState μ × Bool}
    (h : handleFinal P M ins2ctx flushed s fis = .ok results) (hresult : result ∈ results) :
    ∃ flushes, result.2 = (flushed || flushes) ∧ Handles P M ins2ctx fis s result.1 flushes := by
  induction fis generalizing s flushed results with
  | nil =>
    cases h
    cases List.mem_singleton.mp hresult
    exact ⟨false, (Bool.or_false _).symm, .nil⟩
  | cons fi fis ih =>
    obtain ⟨⟨⟨t, flushes⟩, alternatives⟩, ht, h⟩ := bind_eq_ok.mp h
    obtain ⟨rest, hrest, h⟩ := bind_eq_ok.mp h
    cases h
    have hcommits : checkForBranches P M (commits P s fi) fi ins2ctx =
        .ok ((t, flushes), alternatives) := ht
    obtain ⟨mi, hmi, ⟨hplain, rfl, rfl, rfl⟩ | ⟨hcontrol, rfl, ⟨m, hm, hempty⟩, halt⟩⟩ :=
      checkForBranches_eq_ok hcommits
    · obtain ⟨flushes, heq, hhandles⟩ := ih hrest (by simpa using hresult)
      exact ⟨flushes, by simpa using heq, .plain hmi hplain hhandles⟩
    · rcases List.mem_append.mp hresult with hmem | hmem
      · obtain ⟨alt, hmem', rfl⟩ := List.mem_map.mp hmem
        obtain ⟨m', hm', ⟨hflag, hempty'⟩ | ⟨hflag, hreturn, heq⟩⟩ := halt alt hmem'
        · exact ⟨true, by simp [hflag], .flushedAlternative hmi hcontrol hm'.branchesTo hempty'⟩
        · exact ⟨false, by simp [hflag], heq ▸ .alternative hmi hcontrol hm' hreturn⟩
      · obtain ⟨flushes, heq, hhandles⟩ := ih hrest hmem
        exact ⟨true, by simpa using heq, .branch hmi hcontrol hm hempty hhandles⟩

theorem cycles_of_observedCycle {dep : StateDep}
    {results : List (OutOfOrderPipelineState μ × CycleLog)}
    {result : OutOfOrderPipelineState μ × CycleLog}
    (h : observedCycle P M dep s = .ok results) (hresult : result ∈ results) :
    Cycles P M dep s result.1 result.2 := by
  obtain ⟨memories, hmemories, h⟩ := bind_eq_ok.mp h
  obtain ⟨t, ht, l, hl, hmem⟩ := (mem_forEach h).mp hresult
  obtain ⟨memory, hmemory, rfl⟩ := List.mem_map.mp ht
  have hmemory : Leads (M.cycle false) s.memory memory := ⟨memories, hmemories, hmemory⟩
  unfold cyclePipeline at hl
  dsimp only at hl
  split at hl
  · next hstall =>
    obtain ⟨forwarded, hforwarded, hl⟩ := bind_eq_ok.mp hl
    cases hl
    obtain ⟨u, hu, rfl⟩ := List.mem_map.mp hmem
    obtain ⟨memory', hforward, rfl⟩ := fastForwardAndInsert_forwards ⟨forwarded, hforwarded, hu⟩
    exact .stalls hmemory hstall hforward
  · next hstall =>
    obtain ⟨states, hstates, hl⟩ := bind_eq_ok.mp hl
    obtain ⟨u, hu, l', hl', hmem⟩ := (mem_forEach hl).mp hmem
    obtain ⟨t, ht, hunits⟩ := unitsCycle_of_cycleFuncUnits hstates hu
    cases List.mem_singleton.mp ht
    obtain ⟨_, _, hl'⟩ := bind_eq_ok.mp hl'
    obtain ⟨⟨v, fetched, tempFi⟩, hv, hl'⟩ := bind_eq_ok.mp hl'
    obtain ⟨handled, hhandled, hl'⟩ := bind_eq_ok.mp hl'
    obtain ⟨w, hw, l'', hl'', hmem⟩ := (mem_forEach hl').mp hmem
    obtain ⟨forwarded, hforwarded, hl''⟩ := bind_eq_ok.mp hl''
    cases hl''
    obtain ⟨x, hx, rfl⟩ := List.mem_map.mp hmem
    obtain ⟨flushes, heq, hhandles⟩ := handles_of_handleFinal hhandled hw
    rw [Bool.false_or] at heq
    subst heq
    obtain ⟨memory', hforward, rfl⟩ := fastForwardAndInsert_forwards ⟨forwarded, hforwarded, hx⟩
    exact .runs hmemory (Bool.eq_false_iff.mpr hstall) hunits hv hhandles hforward

end Inversion

variable (P M)

/-- The runs whose cycles start in permitted states, with what happened in the cycles. Beside
its cycles a pipeline is asked for final instructions, and its assumptions are used up. -/
inductive Run (permitted : OutOfOrderPipelineState μ → Prop) :
    List CycleLog → OutOfOrderPipelineState μ → Prop
  | new {progloc : ExecutionElement} {s : OutOfOrderPipelineState μ}
    (hs : new M progloc = .ok s) : Run permitted [] s
  | cycle {logs : List CycleLog} {dep : StateDep} {s s' : OutOfOrderPipelineState μ}
    {log : CycleLog} (h : Run permitted logs s) (hs : permitted s)
    (hs' : Leads (observedCycle P M dep) s (s', log)) : Run permitted (logs ++ [log]) s'
  | isFinal {logs : List CycleLog} {s : OutOfOrderPipelineState μ} (h : Run permitted logs s)
    (ee : ExecutionElement) : Run permitted logs (isFinal P M s ee).2
  | resetLocalMetrics {logs : List CycleLog} {s : OutOfOrderPipelineState μ}
    (h : Run permitted logs s) : Run permitted logs (resetLocalMetrics M s)
  | useBranchAssumption {logs : List CycleLog} {s : OutOfOrderPipelineState μ}
    (h : Run permitted logs s) : Run permitted logs s.useBranchAssumption
  | useReturnAssumption {logs : List CycleLog} {s : OutOfOrderPipelineState μ}
    (h : Run permitted logs s) : Run permitted logs s.useReturnAssumption

/-- The states of these runs. -/
def Reachable (permitted : OutOfOrderPipelineState μ → Prop) (s : OutOfOrderPipelineState μ) :
    Prop := ∃ logs, Run P M permitted logs s

variable {P M}

theorem leads_observedCycle {dep : StateDep} (h : Leads (cycle P M dep) s s') :
    ∃ log, Leads (observedCycle P M dep) s (s', log) := by
  obtain ⟨l, h, hmem⟩ := h
  obtain ⟨results, hresults, h⟩ := bind_eq_ok.mp h
  obtain ⟨_, _, h⟩ := bind_eq_ok.mp h
  obtain ⟨_, _, h⟩ := bind_eq_ok.mp h
  cases h
  obtain ⟨⟨t, log⟩, hresult, rfl⟩ := List.mem_map.mp hmem
  exact ⟨log, results, hresults, hresult⟩

/-- A run that takes the first successor of each state. -/
theorem reachable_iterate {permitted : OutOfOrderPipelineState μ → Prop} {dep : StateDep} {n : ℕ}
    (h : Reachable P M permitted s)
    (hrun : ∀ k < n, permitted ((nthSuccessor (cycle P M dep) 0)^[k] s) ∧
      hasNthSuccessor (cycle P M dep) 0 ((nthSuccessor (cycle P M dep) 0)^[k] s) = true) :
    Reachable P M permitted ((nthSuccessor (cycle P M dep) 0)^[n] s) := by
  induction n with
  | zero => exact h
  | succ n ih =>
    obtain ⟨hpermitted, hnext⟩ := hrun n (Nat.lt_succ_self n)
    rw [Function.iterate_succ_apply']
    obtain ⟨logs, hlogs⟩ := ih fun k hk => hrun k (hk.trans (Nat.lt_succ_self n))
    obtain ⟨log, hlog⟩ := leads_observedCycle (leads_nthSuccessor hnext)
    exact ⟨logs ++ [log], .cycle hlogs hpermitted hlog⟩

variable (P M) in
/-- A cycle of a pipeline together with what happened before. -/
def loggedCycle (dep : StateDep) (run : List CycleLog × OutOfOrderPipelineState μ) :
    Except Fault (List (List CycleLog × OutOfOrderPipelineState μ)) := do
  .ok ((← observedCycle P M dep run.2).map fun (s, log) => (run.1 ++ [log], s))

/-- A run that takes the successors at the positions. -/
theorem run_of_successorAlong {permitted : OutOfOrderPipelineState μ → Prop} {dep : StateDep}
    {ns : List ℕ} {run run' : List CycleLog × OutOfOrderPipelineState μ}
    (hpermitted : ∀ s, permitted s) (hrun : Run P M permitted run.1 run.2)
    (h : successorAlong (loggedCycle P M dep) ns run = some run') :
    Run P M permitted run'.1 run'.2 := by
  apply successorAlong_invariant (I := fun run => Run P M permitted run.1 run.2) _ hrun h
  rintro ⟨logs, s⟩ run' hrun ⟨successors, hsuccessors, hmem⟩
  obtain ⟨results, hresults, hsuccessors⟩ := bind_eq_ok.mp hsuccessors
  cases hsuccessors
  obtain ⟨⟨t, log⟩, hresult, rfl⟩ := List.mem_map.mp hmem
  exact .cycle hrun (hpermitted s) ⟨results, hresults, hresult⟩

end OutOfOrderPipelineState

end MicroArch

/-- The topology as one of a pipeline; it does not know scopes. -/
def SingleMemoryTopology.pipelineTopology (opts : SingleMemoryOptions) {ν : Type}
    (M : AbstractCyclingMemory ν) : MicroArch.MemoryTopology (SingleMemoryTopology ν) where
  toMemoryTopologyInterface := topology opts M
  enterScope := fun m _ => m
  leaveScope := fun m _ => m
  hasUnfinishedAccesses := fun m =>
    m.currentIdAccessed != 0 || !m.dataQueue.isEmpty || !m.instructionQueue.isEmpty
  isBusyAccessingInstr := fun m =>
    !m.instructionQueue.isEmpty || (decide (0 < m.currentIdAccessed) && m.currentIdAccessesInstr)
  isBusyAccessingData := fun m =>
    !m.dataQueue.isEmpty || (decide (0 < m.currentIdAccessed) && !m.currentIdAccessesInstr)

namespace MicroArch.OutOfOrderPipelineState

section StraightLine

/-- An instruction of a simple unit. -/
def simpleInstr : MachineInstr where
  getOpcode := 0
  isBranch := false
  isBarrier := false
  isIndirectBranch := false
  isCall := false
  isReturn := false
  isJumpTableBranch := false
  isPredicated := false
  mayLoad := false
  mayStore := false
  operands := []
  getParent := 0
  targetMBBs := []

/-- A block of twelve instructions, each of which takes the given time. -/
def straightLine (executionTime : ℕ) : Program where
  getMachineInstrByAddr addr := if addr < 48 then some simpleInstr else none
  fetchNext ee := .ok (ee.1 + 4, if ee.1 + 4 < 48 then ee.2 else ⟨[]⟩)
  pcUpdate ee _ := .ok ee
  callTarget _ ee := .ok ee
  returnLocations _ _ := .ok []
  instructionExecutionTimes _ := some [executionTime]
  needPersistenceScopes := false
  getEnteringScopes _ := []
  getLeavingScopes _ := []
  unblockStores := false

/-- A topology with a memory that takes one cycle. -/
def oneCycleTopology : MemoryTopology (SingleMemoryTopology FixedLatencyCyclingMemory) :=
  SingleMemoryTopology.pipelineTopology ⟨false, 32, 32, false⟩
    (FixedLatencyCyclingMemory.fixedLatency ⟨1, 0⟩)

def noDataAccesses : StateDep :=
  ⟨fun _ => [], ⟨fun _ => 0, fun _ _ _ => .getUnknownAddress⟩⟩

/-- The pipeline at the start of the block. -/
def straightLineStart : OutOfOrderPipelineState (SingleMemoryTopology FixedLatencyCyclingMemory) :=
  match new oneCycleTopology (0, ⟨[.none]⟩) with
  | .ok s => s
  | .error _ => {
    toMicroArchitecturalState := .new (0, ⟨[]⟩)
    memory := oneCycleTopology.new
    instructionQueue := ⟨[], 0, true⟩
    finalInstructions := []
    regStatTabl := .new
    reOrderBuffer := .new
    resStations := []
    funcUnits := []
    commonDataBus := none
    speculativeScopeEntrances := [] }

/-- The state after a number of cycles, where each instruction takes the given time. -/
def straightLineAfter (executionTime n : ℕ) :
    OutOfOrderPipelineState (SingleMemoryTopology FixedLatencyCyclingMemory) :=
  (nthSuccessor (cycle (straightLine executionTime) oneCycleTopology noDataAccesses) 0)^[n]
    straightLineStart

theorem reachable_straightLineAfter {executionTime n : ℕ}
    {permitted : OutOfOrderPipelineState (SingleMemoryTopology FixedLatencyCyclingMemory) → Prop}
    (h : ∀ k < n, permitted (straightLineAfter executionTime k) ∧
      hasNthSuccessor (cycle (straightLine executionTime) oneCycleTopology noDataAccesses) 0
        (straightLineAfter executionTime k) = true) :
    Reachable (straightLine executionTime) oneCycleTopology permitted
      (straightLineAfter executionTime n) := by
  have hnew : new oneCycleTopology (0, ⟨[.none]⟩) = .ok straightLineStart := rfl
  exact reachable_iterate ⟨[], .new hnew⟩ h

end StraightLine

end MicroArch.OutOfOrderPipelineState

end Llvmta
