import Llvmta.Library.Interleaving
import Llvmta.MicroarchitecturalAnalysis.InOrderAccesses
import Llvmta.MicroarchitecturalAnalysis.OutOfOrderCycles

/-!
# Completion in the in-order pipeline

What is fetched is completed once and in order, unless it is waiting to be decoded when an older
control-flow instruction takes effect, or it is not an instruction. Only instructions that are
completed access data, each of them as often as it has accesses.
-/

namespace Llvmta.MicroArch.InOrderPipelineState

open Checked

variable (P : Program) (T : InOrderTarget) {μ : Type} (M : MemoryTopology μ)
  (addrInfo : AddressInformation)

/-- What was fetched is completed, in flight, or removed before it was decoded. -/
def CompletionInvariant (logs : List InOrderLog) (s : InOrderPipelineState μ) : Prop :=
  ∃ before, logs.flatMap InOrderLog.fetched = before ++ s.ifId.toList ∧
    Interleaving (logs.flatMap InOrderLog.completed ++ s.decoded)
      (logs.flatMap fun log => log.flushed ++ log.ended) before

/-- What holds between the cycles of a run. -/
structure RunInvariant (logs : List InOrderLog) (s : InOrderPipelineState μ) : Prop where
  stages : StageInvariant P T s
  fetching : s.flushedFetchStage = false
  order : CompletionInvariant logs s
  data : DataInvariant P addrInfo (logs.flatMap InOrderLog.completed)
    (logs.flatMap InOrderLog.accesses) s
  ended : ∀ log ∈ logs, ∀ ee ∈ log.ended, P.getMachineInstrByAddr ee.1 = none

/-- The state in which the stages are processed after the memory was cycled. -/
def BeforeMemoryStage (s t : InOrderPipelineState μ) : Prop :=
  ∃ u, Leads (cycleMemoryTopology P T M)
    { s with stallMemory := false, interlock := false, time := s.time.add (.ofValue 1) } u ∧
    t = processWriteBackStage P M u

/-- The state in which the execute stage is processed. -/
def BeforeExecuteStage (dep : StateDep) (s u : InOrderPipelineState μ) : Prop :=
  ∃ t events, BeforeMemoryStage P T M s t ∧ Leads (processMemoryStage P T M dep) t (u, events)

/-- The instructions complete once and in order. -/
structure CompletesInOrder (logs : List InOrderLog) (s : InOrderPipelineState μ) : Prop where
  /-- what was fetched is completed or in flight, in order, or it was removed -/
  order : Interleaving
    (logs.flatMap InOrderLog.completed ++ s.decoded ++ s.ifId.toList)
    (logs.flatMap fun log => log.flushed ++ log.ended) (logs.flatMap InOrderLog.fetched)
  /-- what is completed passes through the final stage -/
  passes : ∀ ins2ctx s' log, Leads (observedCycle P T M ⟨ins2ctx, addrInfo⟩) s (s', log) →
    s'.wbFin.toList = log.completed
  /-- what waits to be decoded is flushed when an older control-flow instruction takes effect -/
  flushed : ∀ ins2ctx s' log, Leads (observedCycle P T M ⟨ins2ctx, addrInfo⟩) s (s', log) →
    log.flushed = if log.cause.isSome then s.ifId.toList else []
  cause : ∀ ins2ctx s' log ee, Leads (observedCycle P T M ⟨ins2ctx, addrInfo⟩) s (s', log) →
    log.cause = some ee → (s.exMem = some ee ∨ s.idEx = some ee) ∧
      ∃ mi, P.getMachineInstrByAddr ee.1 = some mi ∧ changesControlFlow mi = true
  ended : ∀ log ∈ logs, ∀ ee ∈ log.ended, P.getMachineInstrByAddr ee.1 = none
  /-- the accesses of completed instructions, one after the other, and the first ones of the
  instruction in the memory stage -/
  accesses : ∃ progress, logs.flatMap InOrderLog.accesses =
      (logs.flatMap InOrderLog.completed ++ s.memWb.toList).flatMap (allAccesses P addrInfo) ++
        progress ∧
    progress <+: s.exMem.toList.flatMap (allAccesses P addrInfo)
  /-- the final stage is cleared when it is asked for its element -/
  cleared : ∀ ee, s.wbFin = some ee → (isFinal P M s ee).2.wbFin = none
  /-- the execute stage is empty when an instruction takes effect in the memory stage -/
  memoryEmpty : ∀ t ee, BeforeMemoryStage P T M s t → t.exMem = some ee → TakesEffectLate P ee →
    t.idEx = none
  /-- the execute stage has execution times if and only if it is not empty -/
  executeTimes : ∀ ins2ctx u, BeforeExecuteStage P T M ⟨ins2ctx, addrInfo⟩ s u →
    (u.remainingExecutionTimes = [] ↔ u.idEx = none)

variable {P T M addrInfo} {s t : InOrderPipelineState μ} {ee : ExecutionElement}
  {events : List DataEvent} {dep : StateDep}

section Effects

/-- The pipeline is flushed by a control-flow instruction. -/
theorem Branches.changes {ins2ctx : InstrContextMapping} {memory : Bool}
    (h : Branches P T M ins2ctx memory ee s t) (hs : s.flushedFetchStage = false)
    (ht : t.flushedFetchStage = true) :
    ∃ mi, P.getMachineInstrByAddr ee.1 = some mi ∧ changesControlFlow mi = true := by
  cases h with
  | plain => exact nomatch hs.symm.trans ht
  | flushes hmi hcontrol => exact ⟨_, hmi, hcontrol⟩
  | alternative hmi hcontrol => exact ⟨_, hmi, hcontrol⟩
  | accesses hmi hcontrol => exact ⟨_, hmi, hcontrol⟩

theorem MemoryStage.effect (h : MemoryStage P T M dep s t events) :
    t.idEx = s.idEx ∧ t.wbFin = s.wbFin ∧
      (s.flushedFetchStage = false → t.flushedFetchStage = true → ∃ ee mi, s.exMem = some ee ∧
        P.getMachineInstrByAddr ee.1 = some mi ∧ changesControlFlow mi = true) := by
  cases h with
  | empty => exact ⟨rfl, rfl, fun hs ht => nomatch hs.symm.trans ht⟩
  | stays _ _ ht =>
    obtain ⟨_, _, _, _, rfl⟩ := finishAccesses_frame ht
    exact ⟨rfl, rfl, fun hs ht => nomatch hs.symm.trans ht⟩
  | @leaves ee mi interlock u v _ hee hmi hu _ _ _ hv =>
    obtain ⟨_, _, _, _, rfl⟩ := finishAccesses_frame hu
    have hkept : v.idEx = s.idEx ∧ v.wbFin = s.wbFin := by
      obtain ⟨_, _, ⟨_, rfl⟩ | rfl⟩ := hv.frame <;> exact ⟨rfl, rfl⟩
    refine ⟨hkept.1, hkept.2, fun hs ht => ?_⟩
    obtain ⟨mi', hmi', hcontrol⟩ := hv.changes hs ht
    exact ⟨ee, mi', hee, hmi', hcontrol⟩

theorem ExecuteStage.effect (h : ExecuteStage P T M dep s t events) :
    t.wbFin = s.wbFin ∧ (s.flushedFetchStage = true → t.flushedFetchStage = true) ∧
      (s.flushedFetchStage = false → t.flushedFetchStage = true → ∃ ee mi, s.idEx = some ee ∧
        P.getMachineInstrByAddr ee.1 = some mi ∧ changesControlFlow mi = true) := by
  cases h with
  | waits => exact ⟨rfl, id, fun hs ht => nomatch hs.symm.trans ht⟩
  | continues => exact ⟨rfl, id, fun hs ht => nomatch hs.symm.trans ht⟩
  | ends => exact ⟨rfl, id, fun hs ht => nomatch hs.symm.trans ht⟩
  | @leaves ee u v _ hee _ hu hv =>
    obtain ⟨_, _, _, rfl⟩ := accessData_frame hu
    have hkept : v.wbFin = s.wbFin ∧
        (s.flushedFetchStage = true → v.flushedFetchStage = true) := by
      obtain ⟨_, _, ⟨_, rfl⟩ | rfl⟩ := hv.frame
      · exact ⟨rfl, id⟩
      · exact ⟨rfl, fun _ => rfl⟩
    refine ⟨hkept.1, hkept.2, fun hs ht => ?_⟩
    obtain ⟨mi', hmi', hcontrol⟩ := hv.changes hs ht
    exact ⟨ee, mi', hee, hmi', hcontrol⟩

theorem DecodeStage.wbFin_eq (h : DecodeStage P s t) : t.wbFin = s.wbFin := by
  cases h <;> rfl

/-- Something is fetched only when nothing waits to be decoded. -/
theorem FetchStage.effect (h : FetchStage P T M s t) :
    t.wbFin = s.wbFin ∧ t.decoded = s.decoded ∧ (t.ifId = s.ifId ∨ s.ifId = none) := by
  obtain ⟨_, _, _, hpolled⟩ := pollFetch_frame (M := M) s
  cases h with
  | restarts _ ht =>
    obtain ⟨_, _, rfl⟩ := restartFetch_frame ht
    exact ⟨rfl, rfl, .inl rfl⟩
  | waits =>
    rw [hpolled]
    exact ⟨rfl, rfl, .inl rfl⟩
  | fetches _ hroom _ ht =>
    rw [hpolled] at ht
    obtain ⟨_, _, _, _, rfl, _⟩ := fetch_frame ht
    exact ⟨rfl, rfl, .inr hroom⟩

end Effects

section Order

variable {fetched completed removed before : List ExecutionElement} {ifId : Option ExecutionElement}

/-- What waits to be decoded is flushed or not. -/
theorem interleaving_flush {flush : Bool}
    (hfetched : fetched = before ++ ifId.toList) (h : Interleaving completed removed before)
    (ht : t.ifId = ifId ∧ flush = false ∨ t.ifId = none ∧ flush = true) :
    ∃ before', fetched = before' ++ t.ifId.toList ∧
      Interleaving completed (removed ++ if flush then ifId.toList else []) before' := by
  rcases ht with ⟨hkept, rfl⟩ | ⟨hnone, rfl⟩
  · refine ⟨before, ?_, ?_⟩
    · rw [hkept, hfetched]
    · simpa using h
  · refine ⟨before ++ ifId.toList, ?_, ?_⟩
    · rw [hnone, hfetched]
      simp
    · exact h.remove_toList ifId

/-- What is decoded is an instruction, or it is removed. -/
theorem interleaving_decode (hfetched : fetched = before ++ s.ifId.toList)
    (h : Interleaving (completed ++ s.decoded) removed before) (ht : DecodeStage P s t) :
    ∃ before', fetched = before' ++ t.ifId.toList ∧
      Interleaving (completed ++ t.decoded)
        (removed ++ if t.ifId.isNone && t.idEx == s.idEx then s.ifId.toList else []) before' := by
  cases ht with
  | waits =>
    refine ⟨before, hfetched, ?_⟩
    cases hifId : s.ifId <;> simpa using h
  | @ends ee hee =>
    have hdecoded : decoded { s with ifId := none } = s.decoded := rfl
    refine ⟨before ++ s.ifId.toList, by simpa using hfetched, ?_⟩
    rw [hdecoded]
    simpa using h.remove_toList s.ifId
  | @decodes ee mi times hee hroom =>
    refine ⟨before ++ s.ifId.toList, by simpa using hfetched, ?_⟩
    have hdecoded : decoded { s with
        idEx := some ee, remainingExecutionTimes := times, ifId := none } =
        s.decoded ++ s.ifId.toList := by
      simp [decoded, hroom, hee]
    rw [hdecoded, hroom, ← List.append_assoc]
    simpa using h.keep_toList s.ifId

theorem ended_of_decodeStage (ht : DecodeStage P s t)
    (hee : ee ∈ if t.ifId.isNone && t.idEx == s.idEx then s.ifId.toList else []) :
    P.getMachineInstrByAddr ee.1 = none := by
  cases ht with
  | waits => cases hifId : s.ifId <;> simp [hifId] at hee
  | ends hifId _ hmi =>
    rw [hifId] at hee
    cases List.mem_singleton.mp (by simpa using hee)
    exact hmi
  | decodes _ hroom =>
    rw [hroom] at hee
    exact nomatch hee

end Order

section Cycle

variable {logs : List InOrderLog} {log : InOrderLog}

theorem StageInvariant.started (h : StageInvariant P T s) (memory : μ) :
    StageInvariant P T (s.started memory) :=
  ⟨h.instr, h.times, h.access, h.memory, h.execute, h.decode, h.flushed⟩

/-- Until the execute stage is done at most what waits to be decoded is lost. -/
theorem stages_until_execute (hloads : LoadsReturn P T) (hs : StageInvariant P T s)
    (hfetching : s.flushedFetchStage = false) {memory : μ} {u : InOrderPipelineState μ}
    {events' : List DataEvent}
    (ht : MemoryStage P T M dep (processWriteBackStage P M (s.started memory)) t events)
    (hu : ExecuteStage P T M dep t u events') :
    StageInvariant P T u ∧ s.decoded = s.memWb.toList ++ u.decoded ∧
      (u.ifId = s.ifId ∧ u.flushedFetchStage = false ∨
        u.ifId = none ∧ u.flushedFetchStage = true) := by
  have hdecoded := decoded_processWriteBackStage (P := P) (M := M) (s.started memory)
  have hkept : (processWriteBackStage P M (s.started memory)).ifId = s.ifId ∧
      (processWriteBackStage P M (s.started memory)).flushedFetchStage = false := by
    obtain ⟨_, _, heq, _⟩ := processWriteBackStage_frame (P := P) (M := M) (s.started memory)
    rw [heq]
    exact ⟨rfl, hfetching⟩
  obtain ⟨hstagesT, hdecodedT, hifIdT⟩ := (hs.started memory).writeBack.memoryStage ht
  obtain ⟨hstagesU, hdecodedU, hifIdU⟩ := hstagesT.executeStage hloads hu
  refine ⟨hstagesU, ?_, ?_⟩
  · rw [hdecodedU, hdecodedT]
    exact hdecoded
  · rw [hkept.1, hkept.2] at hifIdT
    rcases hifIdU with ⟨hifIdU, hflushU⟩ | hflushed
    · rw [hifIdU, hflushU]
      exact hifIdT
    · exact .inr hflushed

/-- The log names the instruction that has flushed the pipeline, if one has. -/
theorem flushed_of_cycles (hfetching : s.flushedFetchStage = false)
    (h : Cycles P T M dep s t log) :
    log.flushed = (if log.cause.isSome then s.ifId.toList else []) ∧
      ∀ ee, log.cause = some ee → (s.exMem = some ee ∨ s.idEx = some ee) ∧
        ∃ mi, P.getMachineInstrByAddr ee.1 = some mi ∧ changesControlFlow mi = true := by
  cases h with
  | stalls => exact ⟨rfl, fun ee hee => nomatch hee⟩
  | @runs memory memory' t u v w events events' hmemory hfinal hstall ht hu hv hw hforward =>
    have hkept : (processWriteBackStage P M (s.started memory)).exMem = s.exMem ∧
        (processWriteBackStage P M (s.started memory)).idEx = s.idEx ∧
        (processWriteBackStage P M (s.started memory)).flushedFetchStage = false := by
      obtain ⟨_, _, heq, _⟩ := processWriteBackStage_frame (P := P) (M := M) (s.started memory)
      rw [heq]
      exact ⟨rfl, rfl, hfetching⟩
    obtain ⟨hidEx, _, hflushT⟩ := ht.effect
    obtain ⟨_, hflushedU, hflushU⟩ := hu.effect
    rw [hkept.1] at hflushT
    rw [hkept.2.1] at hidEx
    unfold logOf
    dsimp only
    cases hflagT : t.flushedFetchStage with
    | true =>
      obtain ⟨ee, mi, hee, hmi, hcontrol⟩ := hflushT hkept.2.2 hflagT
      have hexMem : (s.started memory).exMem = some ee := hee
      rw [hflushedU hflagT, hexMem]
      refine ⟨rfl, fun ee' hee' => ?_⟩
      cases hee'
      exact ⟨.inl hee, mi, hmi, hcontrol⟩
    | false =>
      cases hflagU : u.flushedFetchStage with
      | false => exact ⟨rfl, fun ee hee => nomatch hee⟩
      | true =>
        obtain ⟨ee, mi, hee, hmi, hcontrol⟩ := hflushU hflagT hflagU
        rw [hee]
        refine ⟨rfl, fun ee' hee' => ?_⟩
        cases hee'
        exact ⟨.inr (hidEx.symm.trans hee), mi, hmi, hcontrol⟩

/-- What a cycle makes of the order. -/
theorem CompletionInvariant.cycles (hloads : LoadsReturn P T) (hs : StageInvariant P T s)
    (hfetching : s.flushedFetchStage = false) (h : CompletionInvariant logs s)
    (hcycle : Cycles P T M dep s t log) : CompletionInvariant (logs ++ [log]) t := by
  obtain ⟨before, hfetched, horder⟩ := h
  unfold CompletionInvariant
  simp only [List.flatMap_append, List.flatMap_singleton]
  cases hcycle with
  | stalls =>
    refine ⟨before, ?_, ?_⟩
    · rw [List.append_nil]
      exact hfetched
    · rw [List.append_nil, List.append_nil, List.append_nil]
      exact horder
  | @runs memory memory' t u v w events events' hmemory hfinal hstall ht hu hv hw hforward =>
    obtain ⟨_, hdecodedU, hifIdU⟩ := stages_until_execute hloads hs hfetching ht hu
    rw [hdecodedU, ← List.append_assoc] at horder
    obtain ⟨before', hfetched', horder'⟩ := interleaving_flush hfetched horder hifIdU
    obtain ⟨before'', hfetched'', horder''⟩ := interleaving_decode hfetched' horder' hv
    obtain ⟨_, hdecodedW, hifIdW⟩ := hw.effect
    refine ⟨before'', ?_, ?_⟩
    · rw [hfetched'', List.append_assoc]
      congr 1
      change v.ifId.toList ++ (if v.ifId.isNone then w.ifId.toList else []) = w.ifId.toList
      rcases hifIdW with hkept | hnone
      · rw [hkept]
        cases v.ifId <;> simp
      · rw [hnone]
        rfl
    · rw [← List.append_assoc (List.flatMap _ logs)]
      rw [← hdecodedW] at horder''
      exact horder''

/-- What is completed passes through the final stage. -/
theorem passes_of_cycles (h : Cycles P T M dep s t log) : t.wbFin.toList = log.completed := by
  cases h with
  | stalls _ hfinal =>
    change s.wbFin.toList = []
    rw [hfinal]
    rfl
  | @runs memory memory' t u v w events events' hmemory hfinal hstall ht hu hv hw hforward =>
    change w.wbFin.toList = s.memWb.toList
    rw [hw.effect.1, hv.wbFin_eq, hu.effect.1, ht.effect.2.1]
    obtain ⟨_, wbFin, heq, hwbFin⟩ :=
      processWriteBackStage_frame (P := P) (M := M) (s.started memory)
    rw [heq]
    rcases hwbFin with rfl | ⟨hnone, rfl⟩
    · rfl
    · change s.wbFin.toList = s.memWb.toList
      have hnone : s.memWb = none := hnone
      rw [hfinal, hnone]

theorem DataInvariant.cycles {completed : List ExecutionElement}
    (h : DataInvariant P dep.addrInfo completed events s) (hcycle : Cycles P T M dep s t log) :
    DataInvariant P dep.addrInfo (completed ++ log.completed) (events ++ log.accesses) t := by
  cases hcycle with
  | stalls =>
    rw [List.append_nil, List.append_nil]
    exact h.congr rfl rfl rfl rfl
  | @runs memory memory' t u v w events' events'' hmemory hfinal hstall ht hu hv hw hforward =>
    have hstarted : DataInvariant P dep.addrInfo completed events (s.started memory) :=
      h.congr rfl rfl rfl rfl
    have hroom : (processWriteBackStage P M (s.started memory)).memWb = none := by
      obtain ⟨_, _, heq, _⟩ := processWriteBackStage_frame (P := P) (M := M) (s.started memory)
      rw [heq]
    have hdone := (((hstarted.writeBack.memoryStage hroom ht).executeStage hu).decodeStage
      hv).fetchStage hw
    rw [List.append_assoc] at hdone
    exact hdone.congr rfl rfl rfl rfl

theorem RunInvariant.cycles (hloads : LoadsReturn P T) (htakes : TakesTime P)
    (h : RunInvariant P T dep.addrInfo logs s) (hcycle : Cycles P T M dep s t log) :
    RunInvariant P T dep.addrInfo (logs ++ [log]) t := by
  have horder := h.order.cycles hloads h.stages h.fetching hcycle
  have hdata := h.data.cycles hcycle
  cases hcycle with
  | stalls =>
    refine ⟨⟨h.stages.instr, h.stages.times, h.stages.access, h.stages.memory, h.stages.execute,
      h.stages.decode, h.stages.flushed⟩, h.fetching, horder, ?_, ?_⟩
    · simpa using hdata
    · simpa [or_imp, forall_and] using h.ended
  | @runs memory memory' t u v w events' events'' hmemory hfinal hstall ht hu hv hw hforward =>
    obtain ⟨hstagesU, _, _⟩ := stages_until_execute hloads h.stages h.fetching ht hu
    obtain ⟨hstagesV, _⟩ := hstagesU.decodeStage htakes hv
    obtain ⟨hstagesW, _, hfetching⟩ := hstagesV.fetchStage hw
    refine ⟨⟨hstagesW.instr, hstagesW.times, hstagesW.access, hstagesW.memory, hstagesW.execute,
      hstagesW.decode, hstagesW.flushed⟩, hfetching, horder, ?_, ?_⟩
    · simpa using hdata
    · intro log hlog ee hee
      rcases List.mem_append.mp hlog with hlog | hlog
      · exact h.ended log hlog ee hee
      · cases List.mem_singleton.mp hlog
        exact ended_of_decodeStage hv hee

end Cycle

section Run

variable {logs : List InOrderLog} {permitted : InOrderPipelineState μ → InOrderLog → Prop}

theorem new_frame {progloc : ExecutionElement} (h : new M progloc = .ok s) :
    ∃ memory instructionAccessId, s = {
      toMicroArchitecturalState := .new progloc, memory, ifId := none, idEx := none, exMem := none,
      memWb := none, wbFin := none, remainingExecutionTimes := [], stallMemory := false,
      interlock := false, flushedFetchStage := false, instructionAccessId,
      instructionAccessFinished := false, currMemoryAccess := 0, dataAccessIds := .empty } := by
  obtain ⟨⟨id, memory⟩, _, h⟩ := bind_eq_ok.mp h
  cases h
  exact ⟨memory, id, rfl⟩

/-- Being asked for an element does at most clear the final stage. -/
theorem isFinal_frame (s : InOrderPipelineState μ) (ee : ExecutionElement) :
    ∃ wbFin, (isFinal P M s ee).2 = { s with wbFin } ∧ (wbFin = s.wbFin ∨ wbFin = none) := by
  unfold isFinal
  split
  · exact ⟨s.wbFin, rfl, .inl rfl⟩
  · split
    · exact ⟨none, rfl, .inr rfl⟩
    · exact ⟨s.wbFin, rfl, .inl rfl⟩

theorem RunInvariant.isFinal (h : RunInvariant P T addrInfo logs s) (ee : ExecutionElement) :
    RunInvariant P T addrInfo logs (isFinal P M s ee).2 := by
  obtain ⟨wbFin, heq, hwbFin⟩ := isFinal_frame (P := P) (M := M) s ee
  rw [heq]
  have hinstr : ∀ ee ∈ wbFin.toList ++ s.decoded, P.hasMachineInstrByAddr ee.1 = true := by
    intro ee hee
    apply h.stages.instr
    rcases hwbFin with rfl | rfl
    · exact hee
    · exact List.mem_append_right _ hee
  exact ⟨⟨hinstr, h.stages.times, h.stages.access, h.stages.memory, h.stages.execute,
    h.stages.decode, h.stages.flushed⟩, h.fetching, h.order, h.data, h.ended⟩

/-- What the invariant is about is neither the time nor assumptions. -/
theorem RunInvariant.congr (h : RunInvariant P T addrInfo logs s) {m : MicroArchitecturalState}
    {memory : μ} :
    RunInvariant P T addrInfo logs { s with toMicroArchitecturalState := m, memory } :=
  ⟨⟨h.stages.instr, h.stages.times, h.stages.access, h.stages.memory, h.stages.execute,
    h.stages.decode, h.stages.flushed⟩, h.fetching, h.order, h.data, h.ended⟩

theorem runInvariant_of_run (hloads : LoadsReturn P T) (htakes : TakesTime P)
    (h : Run P T M addrInfo permitted logs s) : RunInvariant P T addrInfo logs s := by
  induction h with
  | new hs =>
    obtain ⟨memory, id, rfl⟩ := new_frame hs
    refine ⟨⟨?_, ?_, ?_, ?_, ?_, ?_, ?_⟩, rfl, ⟨[], rfl, .nil⟩, ⟨[], rfl, rfl⟩, ?_⟩
    · exact fun ee hee => nomatch hee
    · exact ⟨fun _ => rfl, fun _ => rfl⟩
    · exact fun hfinished => nomatch hfinished
    · exact fun ee hee => nomatch hee
    · exact fun ee hee => nomatch hee
    · exact fun ee hee => nomatch hee
    · exact fun hflushed => nomatch hflushed
    · exact fun log hlog => nomatch hlog
  | cycle _ _ hs' ih => exact ih.cycles hloads htakes (cycles_of_observedCycle hs')
  | isFinal _ ee ih => exact ih.isFinal ee
  | resetLocalMetrics _ ih => exact ih.congr
  | useBranchAssumption _ ih => exact ih.congr
  | useReturnAssumption _ ih => exact ih.congr

theorem RunInvariant.beforeMemoryStage (h : RunInvariant P T addrInfo logs s)
    (ht : BeforeMemoryStage P T M s t) :
    ∃ memory, t = processWriteBackStage P M (s.started memory) ∧ StageInvariant P T t := by
  obtain ⟨u, hu, rfl⟩ := ht
  obtain ⟨memory, _, rfl⟩ := memoryCycles_of_leads hu
  exact ⟨memory, rfl, (h.stages.started memory).writeBack⟩

/-- In every run instructions complete once and in order. -/
theorem completesInOrder_of_run (hloads : LoadsReturn P T) (htakes : TakesTime P)
    (h : Run P T M addrInfo permitted logs s) : CompletesInOrder P T M addrInfo logs s := by
  have hinvariant := runInvariant_of_run hloads htakes h
  constructor
  case order =>
    obtain ⟨before, hfetched, horder⟩ := hinvariant.order
    rw [hfetched]
    exact horder.keep_toList s.ifId
  case passes => exact fun ins2ctx s' log hs' => passes_of_cycles (cycles_of_observedCycle hs')
  case flushed =>
    intro ins2ctx s' log hs'
    exact (flushed_of_cycles hinvariant.fetching (cycles_of_observedCycle hs')).1
  case cause =>
    intro ins2ctx s' log ee hs' hee
    exact (flushed_of_cycles hinvariant.fetching (cycles_of_observedCycle hs')).2 ee hee
  case ended => exact hinvariant.ended
  case accesses =>
    obtain ⟨progress, hprogress, hevents⟩ := hinvariant.data
    refine ⟨progress, hevents, ?_⟩
    unfold StageProgress at hprogress
    cases hexMem : s.exMem with
    | none =>
      rw [hexMem] at hprogress
      rw [hprogress]
      exact List.nil_prefix
    | some ee =>
      rw [hexMem] at hprogress
      have hprefix : progress <+: allAccesses P addrInfo ee := hprogress.isPrefix
      simpa using hprefix
  case cleared =>
    intro ee hee
    have hinstr : P.hasMachineInstrByAddr ee.1 = true := by
      apply hinvariant.stages.instr
      rw [hee]
      exact List.mem_cons_self
    unfold InOrderPipelineState.isFinal Program.goesExternal
    rw [hinstr, if_neg (by simp), if_pos hee]
  case memoryEmpty =>
    intro t ee ht hee hlate
    obtain ⟨memory, _, hstages⟩ := hinvariant.beforeMemoryStage ht
    exact (hstages.memory ee hee hlate).1
  case executeTimes =>
    rintro ins2ctx u ⟨t, events, ht, hu⟩
    obtain ⟨memory, _, hstages⟩ := hinvariant.beforeMemoryStage ht
    exact (hstages.memoryStage (memoryStage_of_leads hu)).1.times

end Run

section Samples

open OutOfOrderPipelineState (simpleInstr straightLine oneCycleTopology noDataAccesses)

/-- A pipeline that is asked for the element in its final stage. -/
def retire (P : Program) {μ : Type} (M : MemoryTopology μ) (s : InOrderPipelineState μ) :
    InOrderPipelineState μ :=
  match s.wbFin with
  | none => s
  | some ee => (isFinal P M s ee).2

/-- The permitted cycles, where the log is kept and the final stage is cleared. -/
def loggedCycle (P : Program) (T : InOrderTarget) {μ : Type} (M : MemoryTopology μ)
    (permitted : InOrderPipelineState μ → InOrderLog → Prop)
    [∀ s log, Decidable (permitted s log)] (dep : StateDep)
    (run : List InOrderLog × InOrderPipelineState μ) :
    Except Fault (List (List InOrderLog × InOrderPipelineState μ)) := do
  let results ← observedCycle P T M dep run.2
  .ok ((results.filter fun (_, log) => decide (permitted run.2 log)).map
    fun (s, log) => (run.1 ++ [log], retire P M s))

/-- A run that takes the successors at the positions. -/
theorem run_of_successorAlong {permitted : InOrderPipelineState μ → InOrderLog → Prop}
    [∀ s log, Decidable (permitted s log)] {ins2ctx : InstrContextMapping} {ns : List ℕ}
    {run run' : List InOrderLog × InOrderPipelineState μ}
    (hrun : Run P T M addrInfo permitted run.1 run.2)
    (h : successorAlong (loggedCycle P T M permitted ⟨ins2ctx, addrInfo⟩) ns run = some run') :
    Run P T M addrInfo permitted run'.1 run'.2 := by
  apply successorAlong_invariant (I := fun run => Run P T M addrInfo permitted run.1 run.2) _ hrun h
  rintro ⟨logs, s⟩ run' hrun ⟨successors, hsuccessors, hmem⟩
  obtain ⟨results, hresults, hsuccessors⟩ := bind_eq_ok.mp hsuccessors
  cases hsuccessors
  obtain ⟨⟨t, log⟩, hfiltered, rfl⟩ := List.mem_map.mp hmem
  obtain ⟨hresult, hpermitted⟩ := List.mem_filter.mp hfiltered
  have hcycle : Run P T M addrInfo permitted (logs ++ [log]) t :=
    .cycle hrun (of_decide_eq_true hpermitted) ⟨results, hresults, hresult⟩
  unfold retire
  dsimp only
  split
  · exact hcycle
  · exact .isFinal hcycle _

def normalMode : InOrderTarget := ⟨false, false, fun _ _ => false, fun _ => false⟩

/-- A load of two words before a conditional branch over an instruction. -/
def loadAndBranch : Program :=
  { straightLine 1 with
    getMachineInstrByAddr := fun addr =>
      match addr with
      | 0 => some { simpleInstr with mayLoad := true }
      | 4 => some { simpleInstr with isBranch := true, targetMBBs := [2] }
      | 8 => some { simpleInstr with getParent := 1 }
      | 12 => some { simpleInstr with getParent := 2 }
      | _ => none
    fetchNext := fun ee => .ok (ee.1 + 4, ee.2)
    pcUpdate := fun ee _ => .ok (12, ee.2) }

def twoAccesses : AddressInformation := ⟨fun _ => 2, fun _ _ _ => .getUnknownAddress⟩

/-- The pipeline at the start of the program. -/
def sampleStart (M : MemoryTopology μ) : InOrderPipelineState μ :=
  match new M (0, ⟨[]⟩) with
  | .ok s => s
  | .error _ => {
    toMicroArchitecturalState := .new (0, ⟨[]⟩), memory := M.new, ifId := none
    idEx := none, exMem := none, memWb := none, wbFin := none, remainingExecutionTimes := []
    stallMemory := false, interlock := false, flushedFetchStage := false
    instructionAccessId := none, instructionAccessFinished := false, currMemoryAccess := 0
    dataAccessIds := .empty }

/-- What happens when the successors at the positions are taken, and the state after that. -/
def sampleAfter (P : Program) (T : InOrderTarget) (M : MemoryTopology μ)
    (permitted : InOrderPipelineState μ → InOrderLog → Prop)
    [∀ s log, Decidable (permitted s log)] (addrInfo : AddressInformation) (ns : List ℕ) :
    List InOrderLog × InOrderPipelineState μ :=
  (successorAlong (loggedCycle P T M permitted ⟨fun _ => [], addrInfo⟩) ns
    ([], sampleStart M)).getD ([], sampleStart M)

theorem run_sampleAfter {permitted : InOrderPipelineState μ → InOrderLog → Prop}
    [∀ s log, Decidable (permitted s log)] (ns : List ℕ)
    (hnew : new M (0, ⟨[]⟩) = .ok (sampleStart M)) :
    Run P T M addrInfo permitted (sampleAfter P T M permitted addrInfo ns).1
      (sampleAfter P T M permitted addrInfo ns).2 := by
  have hstart : Run P T M addrInfo permitted [] (sampleStart M) := .new hnew
  unfold sampleAfter
  cases hrun : successorAlong (loggedCycle P T M permitted ⟨fun _ => [], addrInfo⟩) ns
    ([], sampleStart M) with
  | none => exact hstart
  | some run => exact run_of_successorAlong hstart hrun

/-- The instruction behind the branch is flushed while the load completes. -/
theorem completesInOrder_loadAndBranch : ∃ logs s,
    CompletesInOrder loadAndBranch normalMode oneCycleTopology twoAccesses logs s ∧
      (logs.flatMap InOrderLog.completed).map Prod.fst = [0, 4] ∧
      (logs.flatMap InOrderLog.flushed).map Prod.fst = [8] ∧
      (logs.flatMap InOrderLog.accesses).length = 4 := by
  have hloads : LoadsReturn loadAndBranch normalMode := fun _ _ _ h => nomatch h
  have htakes : TakesTime loadAndBranch := by
    rintro _ _ ⟨⟩
    exact List.cons_ne_nil _ _
  have hrun : Run loadAndBranch normalMode oneCycleTopology twoAccesses (fun _ _ => True) _ _ :=
    run_sampleAfter [0, 0, 0, 0, 1, 0, 0, 0] rfl
  refine ⟨_, _, completesInOrder_of_run hloads htakes hrun, ?_, ?_, ?_⟩ <;>
  decide +kernel

/-- What is fetched behind the end of the program is neither completed nor flushed. -/
theorem fetched_not_completed : ∃ logs s,
    Run (straightLine 1) normalMode oneCycleTopology twoAccesses (fun _ _ => True) logs s ∧
      ¬ Interleaving (logs.flatMap InOrderLog.completed ++ s.decoded ++ s.ifId.toList)
        (logs.flatMap InOrderLog.flushed) (logs.flatMap InOrderLog.fetched) := by
  refine ⟨_, _, run_sampleAfter (List.replicate 14 0) rfl, ?_⟩
  intro h
  have hlength := h.length_eq
  revert hlength
  decide +kernel

end Samples

end Llvmta.MicroArch.InOrderPipelineState
