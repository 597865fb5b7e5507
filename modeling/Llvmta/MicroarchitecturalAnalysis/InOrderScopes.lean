import Llvmta.MicroarchitecturalAnalysis.InOrderCompletion
import Llvmta.MicroarchitecturalAnalysis.OutOfOrderScopes

/-!
# Scopes of the in-order pipeline

The scopes of an edge are entered when the element in front of it is fetched, and left when that
element is completed. A flush leaves what was entered for elements behind the instruction that
takes effect, and enters the scopes of the edge that was taken.
-/

namespace Llvmta.MicroArch.InOrderPipelineState

open Checked

open OutOfOrderPipelineState (scopesBetween_of_none scopesOf_of_none)

variable (P : Program) (T : InOrderTarget) {μ : Type} {M : MemoryTopology μ}

/-- What is in flight and where fetching goes on, which is open after a flush. -/
def ahead (s : InOrderPipelineState μ) : List ExecutionElement :=
  s.decoded ++ s.ifId.toList ++ if s.flushedFetchStage then [] else [s.pc]

/-- The scopes of what was fetched behind the instruction that flushed the pipeline. -/
def undoneBy (log : InOrderLog) (scope : PersistenceScope) : ℕ :=
  tally P P.getEnteringScopes (incoming log.cause (log.flushed ++ log.abandoned)) scope

def undoneInRun (logs : List InOrderLog) (scope : PersistenceScope) : ℕ :=
  (logs.map fun log => undoneBy P log scope).sum

/-- The scopes are balanced in a run with what happened in its cycles. -/
structure ScopesBalanced (logs : List InOrderLog) (s : InOrderPipelineState (ScopeCounted μ)) :
    Prop where
  /-- each flush has left what was entered behind it -/
  entered : ∀ scope, s.memory.entered.count scope =
    tally P P.getEnteringScopes
      (incoming none (logs.flatMap InOrderLog.completed ++ s.ahead)) scope + undoneInRun P logs scope
  left : ∀ scope, s.memory.left.count scope =
    tally P P.getLeavingScopes
      (incoming none (logs.flatMap InOrderLog.completed ++ s.ahead.take 1)) scope +
        undoneInRun P logs scope
  net : ∀ scope, s.memory.net scope =
    (tally P P.getEnteringScopes
      (incoming none (logs.flatMap InOrderLog.completed ++ s.ahead)) scope : ℤ) -
    tally P P.getLeavingScopes
      (incoming none (logs.flatMap InOrderLog.completed ++ s.ahead.take 1)) scope

/-- If an instruction takes effect while no instruction is being accessed, then no scope was
entered for the edge to where fetching would go on. The program ends behind what is not an
instruction. -/
def UndoesEntrances (s : InOrderPipelineState μ) (log : InOrderLog) : Prop :=
  (log.cause.isSome = true → Stopped s →
    scopesOf P P.getEnteringScopes (s.ifId.or log.cause, s.pc) = []) ∧
  (log.ended ≠ [] → P.getMachineInstrByAddr s.pc.1 = none)

/-- The scopes in a cycle. -/
structure ScopeInvariant (completed : List ExecutionElement) (undone : PersistenceScope → ℕ)
    (s : InOrderPipelineState (ScopeCounted μ)) : Prop where
  entered : ∀ scope, s.memory.entered.count scope =
    tally P P.getEnteringScopes (incoming none (completed ++ s.ahead)) scope + undone scope
  left : ∀ scope, s.memory.left.count scope =
    tally P P.getLeavingScopes (incoming none (completed ++ s.ahead.take 1)) scope + undone scope
  flushed : s.flushedFetchStage = true → s.ifId = none ∧ ∃ ee, s.decoded.getLast? = some ee

variable {P T} {s t : InOrderPipelineState (ScopeCounted μ)} {ee : ExecutionElement}
  {completed : List ExecutionElement} {undone : PersistenceScope → ℕ}

section Frame

theorem getLast?_decoded (s : InOrderPipelineState μ) :
    s.decoded.getLast? = s.idEx.or (s.exMem.or s.memWb) := by
  unfold decoded
  cases s.idEx <;> cases s.exMem <;> cases s.memWb <;> rfl

theorem ScopeInvariant.congr (h : ScopeInvariant P completed undone s)
    (hmemory : s.memory.SameScopes t.memory) (hdecoded : t.decoded = s.decoded)
    (hifId : t.ifId = s.ifId) (hpc : t.pc = s.pc)
    (hflushed : t.flushedFetchStage = s.flushedFetchStage) :
    ScopeInvariant P completed undone t := by
  have hahead : t.ahead = s.ahead := by
    unfold ahead
    rw [hdecoded, hifId, hpc, hflushed]
  refine ⟨fun scope => ?_, fun scope => ?_, ?_⟩
  · rw [hmemory.entered, hahead]
    exact h.entered scope
  · rw [hmemory.left, hahead]
    exact h.left scope
  · rw [hflushed, hifId, hdecoded]
    exact h.flushed

theorem sameScopes_of_memoryCycles {memory memory' : ScopeCounted μ}
    (h : MemoryCycles M.counting memory memory') : memory.SameScopes memory' := by
  obtain ⟨pending, polled, rfl | ⟨id, rfl⟩, hcycle⟩ := h
  · exact sameScopes_of_cycle hcycle
  · have hpolled : memory.SameScopes (M.counting.finishedDataAccess memory id).2 := ⟨rfl, rfl⟩
    exact hpolled.trans (sameScopes_of_cycle hcycle)

theorem sameScopes_of_forwards {memory memory' : ScopeCounted μ}
    (h : Forwards M.counting memory memory') : memory.SameScopes memory' := by
  rcases h with rfl | h
  · exact ⟨rfl, rfl⟩
  · exact sameScopes_of_fastForward h

end Frame

section WriteBack

/-- The element behind the one that is to be completed. -/
def nextInFlight (s : InOrderPipelineState μ) : ExecutionElement :=
  ([s.exMem, s.idEx, s.ifId].findSome? id).getD s.pc

theorem processWriteBackStage_of_memWb (hneed : P.needPersistenceScopes = true)
    {s : InOrderPipelineState μ} (hmemWb : s.memWb = some ee) :
    processWriteBackStage P M s = { s with
      wbFin := some ee
      memWb := none
      memory := M.leaveScopes s.memory
        (P.scopesBetween P.getLeavingScopes ee.1 s.nextInFlight.1) } := by
  unfold processWriteBackStage
  rw [hmemWb, hneed]
  rfl

theorem ahead_of_memWb {s : InOrderPipelineState μ} (hmemWb : s.memWb = some ee)
    (hfetching : s.flushedFetchStage = false) (memory : μ) (wbFin : Option ExecutionElement) :
    ∃ rest, s.ahead = ee :: s.nextInFlight :: rest ∧
      ahead { s with memory, wbFin, memWb := none } = s.nextInFlight :: rest := by
  unfold ahead decoded nextInFlight
  dsimp only
  rw [hmemWb, hfetching]
  cases s.exMem <;> cases s.idEx <;> cases s.ifId <;> exact ⟨_, rfl, rfl⟩

/-- A completed element leaves the scopes of the edge to the next one. -/
theorem ScopeInvariant.writeBack (hneed : P.needPersistenceScopes = true)
    (hfetching : s.flushedFetchStage = false) (h : ScopeInvariant P completed undone s) :
    ScopeInvariant P (completed ++ s.memWb.toList) undone (processWriteBackStage P M.counting s) := by
  cases hmemWb : s.memWb with
  | none =>
    unfold processWriteBackStage
    rw [hmemWb, Option.toList_none, List.append_nil]
    exact h
  | some compl =>
    rw [processWriteBackStage_of_memWb hneed hmemWb]
    obtain ⟨hentered, hleft⟩ := MemoryTopology.leaveScopes_counting (M := M) s.memory
      (P.scopesBetween P.getLeavingScopes compl.1 s.nextInFlight.1)
    obtain ⟨rest, hahead, hahead'⟩ := ahead_of_memWb hmemWb hfetching
      (M.counting.leaveScopes s.memory
        (P.scopesBetween P.getLeavingScopes compl.1 s.nextInFlight.1)) (some compl)
    refine ⟨fun scope => ?_, fun scope => ?_, fun hflushed => nomatch hfetching.symm.trans hflushed⟩
    · have hold := h.entered scope
      rw [hahead] at hold
      rw [hahead', hentered, List.append_assoc]
      exact hold
    · have hold := h.left scope
      rw [hahead] at hold
      rw [hahead', hleft, List.count_append, hold]
      simp only [List.take_succ_cons, List.take_zero, Option.toList_some, incoming_append,
        tally_append, List.getLast?_append, List.getLast?_singleton, incoming, tally_cons, tally_nil]
      simp [scopesOf]
      omega

end WriteBack

section Flush

theorem leaveSpeculatively_counting {stages : List (Option ExecutionElement)} {fetchaddr : ℕ}
    (hfirst : stages.findSome? id = some ee)
    (h : leaveSpeculatively P M.counting s stages fetchaddr = .ok t) :
    (∃ memory, t = { s with memory }) ∧ t.memory.entered = s.memory.entered ∧
      t.memory.left = s.memory.left ++ P.scopesBetween P.getEnteringScopes ee.1 fetchaddr := by
  obtain ⟨next, hnext, h⟩ := bind_eq_ok.mp h
  cases (nextPopulatedStage_eq_ok.mp hnext).symm.trans hfirst
  cases h
  obtain ⟨hentered, hleft⟩ := MemoryTopology.leaveScopes_counting (M := M) s.memory
    (P.scopesBetween P.getEnteringScopes ee.1 fetchaddr)
  exact ⟨⟨_, rfl⟩, hentered, hleft⟩

/-- What a flush leaves: the scopes of the edges behind the instruction that takes effect. -/
theorem leaves_of_flush (hneed : P.needPersistenceScopes = true)
    (hfirst : s.idEx.or (s.exMem.or (s.memWb.or s.wbFin)) = some ee) {oldPc : ExecutionElement}
    (hstopped : Stopped s → scopesOf P P.getEnteringScopes (s.ifId.or (some ee), oldPc) = [])
    (h : emptyPipelineDueToBranching P M.counting s oldPc.1 = .ok t) :
    t.memory.entered = s.memory.entered ∧ ∀ scope, t.memory.left.count scope =
      s.memory.left.count scope +
        tally P P.getEnteringScopes (incoming (some ee) (s.ifId.toList ++ [oldPc])) scope := by
  obtain ⟨u, hu, h⟩ := bind_eq_ok.mp h
  cases h
  unfold leaveSpeculations at hu
  rw [if_pos hneed] at hu
  obtain ⟨v, hv, hu⟩ := bind_eq_ok.mp hu
  obtain ⟨last, hlast⟩ : ∃ last, s.ifId.or (some ee) = some last := by
    cases s.ifId <;> exact ⟨_, rfl⟩
  have haccessed : (∃ memory, v = { s with memory }) ∧ v.memory.entered = s.memory.entered ∧
      v.memory.left = s.memory.left ++ scopesOf P P.getEnteringScopes (some last, oldPc) := by
    unfold leaveAccessed at hv
    split at hv
    · refine leaveSpeculatively_counting ?_ hv
      rw [← hlast, ← hfirst]
      cases s.ifId <;> cases s.idEx <;> cases s.exMem <;> cases s.memWb <;> cases s.wbFin <;> rfl
    · next hnone =>
      cases hv
      have hnil : scopesOf P P.getEnteringScopes (some last, oldPc) = [] := by
        rw [← hlast]
        apply hstopped
        simpa [Stopped] using hnone
      rw [hnil]
      exact ⟨⟨_, rfl⟩, rfl, (List.append_nil _).symm⟩
  obtain ⟨⟨memory, rfl⟩, hentered, hleft⟩ := haccessed
  unfold leaveFetched at hu
  dsimp only at hu
  cases hifId : s.ifId with
  | none =>
    rw [hifId] at hu hlast
    cases hu
    cases hlast
    refine ⟨hentered, fun scope => ?_⟩
    rw [hleft, List.count_append]
    simp [incoming]
  | some fetched =>
    rw [hifId] at hu hlast
    cases hlast
    have hstages : [s.idEx, s.exMem, s.memWb, s.wbFin].findSome? id = some ee := by
      rw [← hfirst]
      cases s.idEx <;> cases s.exMem <;> cases s.memWb <;> cases s.wbFin <;> rfl
    obtain ⟨_, hentered', hleft'⟩ := leaveSpeculatively_counting hstages hu
    refine ⟨hentered'.trans hentered, fun scope => ?_⟩
    dsimp only at hleft hleft' ⊢
    rw [hleft', List.count_append, hleft, List.count_append]
    simp only [Option.toList_some, List.singleton_append, incoming, tally_cons, tally_nil, scopesOf]
    omega

/-- The scopes of what was fetched behind an instruction. -/
def fetchedBehind (P : Program) (s : InOrderPipelineState μ) (cause : Option ExecutionElement)
    (scope : PersistenceScope) : ℕ :=
  tally P P.getEnteringScopes (incoming cause (s.ifId.toList ++ [s.pc])) scope

/-- What was entered for a path is balanced when its end is flushed. -/
theorem ScopeInvariant.flush (hfetching : s.flushedFetchStage = false)
    (hlast : s.decoded.getLast? = some ee) (h : ScopeInvariant P completed undone s)
    (hflushed : t.flushedFetchStage = true) (hifId : t.ifId = none)
    (hdecoded : t.decoded = s.decoded) (hentered : t.memory.entered = s.memory.entered)
    (hleft : ∀ scope, t.memory.left.count scope =
      s.memory.left.count scope + fetchedBehind P s (some ee) scope) :
    ScopeInvariant P completed (fun scope => undone scope + fetchedBehind P s (some ee) scope) t := by
  have hahead : s.ahead = t.ahead ++ (s.ifId.toList ++ [s.pc]) := by
    unfold ahead
    rw [hflushed, hfetching, hifId, hdecoded]
    simp
  have hbefore : t.ahead = s.decoded := by
    unfold ahead
    rw [hflushed, hifId, hdecoded]
    simp
  have hend : (completed ++ s.decoded).getLast? = some ee := by
    rw [List.getLast?_append, hlast]
    rfl
  refine ⟨fun scope => ?_, fun scope => ?_, fun _ => ⟨hifId, ee, ?_⟩⟩
  · rw [hentered, h.entered, hahead, hbefore, ← List.append_assoc, incoming_append, tally_append,
      hend]
    unfold fetchedBehind
    simp only [Option.some_or]
    omega
  · have htake : s.ahead.take 1 = t.ahead.take 1 := by
      rw [hahead, hbefore]
      cases hcons : s.decoded with
      | nil =>
        rw [hcons] at hlast
        exact nomatch hlast
      | cons => rfl
    rw [hleft, h.left, htake]
    omega
  · rw [hdecoded]
    exact hlast

/-- What a branch does to the scopes. -/
theorem Branches.scopes {ins2ctx : InstrContextMapping} {memory : Bool}
    (h : Branches P T M.counting ins2ctx memory ee s t) (hneed : P.needPersistenceScopes = true)
    (hfirst : t.flushedFetchStage = true →
      s.idEx.or (s.exMem.or (s.memWb.or s.wbFin)) = some ee)
    (hfetching : s.flushedFetchStage = false) :
    t.flushedFetchStage = false ∧ s.memory.SameScopes t.memory ∧ t.ifId = s.ifId ∧ t.pc = s.pc ∨
      t.flushedFetchStage = true ∧ t.ifId = none ∧
        ((Stopped s → scopesOf P P.getEnteringScopes (s.ifId.or (some ee), s.pc) = []) →
          t.memory.entered = s.memory.entered ∧ ∀ scope, t.memory.left.count scope =
            s.memory.left.count scope + fetchedBehind P s (some ee) scope) := by
  cases h with
  | plain => exact .inl ⟨hfetching, ⟨rfl, rfl⟩, rfl, rfl⟩
  | @flushes mi m₀ m _ _ _ _ _ _ _ ht =>
    have hframe : t.flushedFetchStage = true ∧ t.ifId = none := by
      obtain ⟨memory, rfl⟩ := emptyPipelineDueToBranching_frame ht
      exact ⟨rfl, rfl⟩
    refine .inr ⟨hframe.1, hframe.2, fun hstopped => ?_⟩
    exact leaves_of_flush (s := { s with toMicroArchitecturalState := m }) hneed (hfirst hframe.1)
      hstopped ht
  | alternative hmi _ _ hreturn hm hmem =>
    have hpc := MicroArchitecturalState.pc_of_handleBranching hmi hreturn hm hmem
    exact .inl ⟨hfetching, ⟨rfl, rfl⟩, rfl, hpc⟩
  | accesses hmi _ _ hreturn hm hmem _ ht =>
    have hpc := MicroArchitecturalState.pc_of_handleBranching hmi hreturn hm hmem
    obtain ⟨id, memory, haccess, rfl⟩ := accessInstruction_eq_ok ht
    exact .inl ⟨hfetching, sameScopes_of_accessInstr haccess, rfl, hpc⟩

end Flush

section Stages

variable {dep : StateDep} {events : List DataEvent}

theorem sameScopes_of_finishAccesses {addrInfo : AddressInformation} {mi : MachineInstr}
    (h : finishAccesses P M.counting addrInfo ee mi s = .ok (t, events)) :
    s.memory.SameScopes t.memory := by
  refine finishAccesses_memory (I := fun m => s.memory.SameScopes m) ?_ ?_ ⟨rfl, rfl⟩ h
  · exact fun m id hm => hm.trans ⟨rfl, rfl⟩
  · exact fun m _ _ _ m' hm haccess => hm.trans (sameScopes_of_accessData haccess)

/-- No access ends in the memory stage. -/
theorem stopped_of_memoryStage (hstages : StageInvariant P T s)
    (h : MemoryStage P T M.counting dep s t events) (ht : Stopped t) : Stopped s := by
  cases h with
  | empty => exact ht
  | stays _ _ hs =>
    obtain ⟨_, _, _, _, rfl⟩ := finishAccesses_frame hs
    exact ht
  | @leaves ee mi interlock u v _ hee hmi hu _ _ _ hv =>
    obtain ⟨_, _, _, _, rfl⟩ := finishAccesses_frame hu
    cases hv with
    | plain => exact ht
    | flushes hmi hcontrol hload => exact (hstages.memory ee hee ⟨_, hmi, hcontrol, hload⟩).2.2
    | alternative => exact ht
    | accesses hmi hcontrol hload => exact (hstages.memory ee hee ⟨_, hmi, hcontrol, hload⟩).2.2

/-- The memory stage flushes the pipeline or does not concern the scopes. -/
theorem ScopeInvariant.memoryStage (hneed : P.needPersistenceScopes = true)
    (hstages : StageInvariant P T s) (hfetching : s.flushedFetchStage = false)
    (hstopped : t.flushedFetchStage = true → Stopped s →
      scopesOf P P.getEnteringScopes (s.ifId.or s.exMem, s.pc) = [])
    (h : ScopeInvariant P completed undone s) (ht : MemoryStage P T M.counting dep s t events) :
    t.flushedFetchStage = false ∧ ScopeInvariant P completed undone t ∧ t.ifId = s.ifId ∧
        t.pc = s.pc ∨
      t.flushedFetchStage = true ∧
        ScopeInvariant P completed (fun scope => undone scope + fetchedBehind P s s.exMem scope) t := by
  have hdecoded := (hstages.memoryStage ht).2.1
  cases ht with
  | empty => exact .inl ⟨hfetching, h, rfl, rfl⟩
  | stays _ _ hs =>
    have hsame := sameScopes_of_finishAccesses hs
    obtain ⟨_, _, _, _, rfl⟩ := finishAccesses_frame hs
    exact .inl ⟨hfetching, h.congr hsame rfl rfl rfl rfl, rfl, rfl⟩
  | @leaves ee mi interlock u v _ hee hmi hu _ hroom _ hv =>
    have hsame := sameScopes_of_finishAccesses hu
    have hstages' := (hstages.memoryStage (.leaves hee hmi hu ‹_› hroom ‹_› hv)).1
    obtain ⟨memory, _, _, _, rfl⟩ := finishAccesses_frame hu
    have hfirst (hflushed : v.flushedFetchStage = true) : s.idEx.or (s.exMem.or ((some ee).or
        s.wbFin)) = some ee := by
      have hidEx : v.idEx = none := (hstages'.flushed hflushed).2.1
      have hkept : v.idEx = s.idEx := by
        obtain ⟨_, _, ⟨_, rfl⟩ | rfl⟩ := hv.frame <;> rfl
      rw [← hkept, hidEx, hee]
      rfl
    rcases hv.scopes hneed hfirst hfetching with ⟨hflush, hmemory, hifId, hpc⟩ |
      ⟨hflush, hifId, hscopes⟩
    · exact .inl ⟨hflush, h.congr (hsame.trans hmemory) hdecoded hifId hpc (hflush.trans
        hfetching.symm), hifId, hpc⟩
    · have hlast : s.decoded.getLast? = some ee := by
        rw [getLast?_decoded]
        have hidEx : v.idEx = none := (hstages'.flushed hflush).2.1
        have hkept : v.idEx = s.idEx := by
          obtain ⟨_, _, ⟨_, rfl⟩ | rfl⟩ := hv.frame <;> rfl
        rw [← hkept, hidEx, hee]
        rfl
      rw [hee] at hstopped ⊢
      obtain ⟨hentered, hleft⟩ := hscopes (hstopped hflush)
      refine .inr ⟨hflush, h.flush hfetching hlast hflush hifId hdecoded ?_ fun scope => ?_⟩
      · exact hentered.trans hsame.entered
      · have hsum := hleft scope
        rwa [hsame.left] at hsum

theorem sameScopes_of_accessData {addrInfo : AddressInformation}
    (h : accessDataFromMemoryTopology P M.counting addrInfo s = .ok (t, events)) :
    s.memory.SameScopes t.memory := by
  refine accessData_memory (I := fun m => s.memory.SameScopes m) ?_ ⟨rfl, rfl⟩ h
  exact fun m _ _ _ m' hm haccess => hm.trans (MicroArch.sameScopes_of_accessData haccess)

/-- The execute stage flushes the pipeline or does not concern the scopes. -/
theorem ScopeInvariant.executeStage (hneed : P.needPersistenceScopes = true)
    (hloads : LoadsReturn P T) (hstages : StageInvariant P T s)
    (hfetching : s.flushedFetchStage = false)
    (hstopped : t.flushedFetchStage = true → Stopped s →
      scopesOf P P.getEnteringScopes (s.ifId.or s.idEx, s.pc) = [])
    (h : ScopeInvariant P completed undone s) (ht : ExecuteStage P T M.counting dep s t events) :
    t.flushedFetchStage = false ∧ ScopeInvariant P completed undone t ∧ t.ifId = s.ifId ∧
        t.pc = s.pc ∨
      t.flushedFetchStage = true ∧
        ScopeInvariant P completed (fun scope => undone scope + fetchedBehind P s s.idEx scope) t := by
  have hdecoded := (hstages.executeStage hloads ht).2.1
  cases ht with
  | waits => exact .inl ⟨hfetching, h, rfl, rfl⟩
  | continues => exact .inl ⟨hfetching, h.congr ⟨rfl, rfl⟩ rfl rfl rfl rfl, rfl, rfl⟩
  | ends => exact .inl ⟨hfetching, h.congr ⟨rfl, rfl⟩ hdecoded rfl rfl rfl, rfl, rfl⟩
  | @leaves ee u v _ hee hroom hu hv =>
    have hsame : s.memory.SameScopes u.memory :=
      sameScopes_of_accessData (s := { s with
        exMem := some ee, dataAccessIds := .empty, currMemoryAccess := 0 }) hu
    obtain ⟨memory, _, _, rfl⟩ := accessData_frame hu
    have hfirst (x : Option ExecutionElement) : s.idEx.or x = some ee := by
      rw [hee]
      rfl
    rcases hv.scopes hneed (fun _ => hfirst _) hfetching with ⟨hflush, hmemory, hifId, hpc⟩ |
      ⟨hflush, hifId, hscopes⟩
    · exact .inl ⟨hflush, h.congr (hsame.trans hmemory) hdecoded hifId hpc (hflush.trans
        hfetching.symm), hifId, hpc⟩
    · have hlast : s.decoded.getLast? = some ee := by
        rw [getLast?_decoded]
        exact hfirst _
      rw [hee] at hstopped ⊢
      obtain ⟨hentered, hleft⟩ := hscopes (hstopped hflush)
      refine .inr ⟨hflush, h.flush hfetching hlast hflush hifId hdecoded ?_ fun scope => ?_⟩
      · exact hentered.trans hsame.entered
      · have hsum := hleft scope
        rwa [hsame.left] at hsum

/-- What is not an instruction has no scopes. -/
theorem ScopeInvariant.decodeStage (h : ScopeInvariant P completed undone s)
    (hend : s.ifId ≠ none → t.ifId = none → t.idEx = s.idEx →
      P.getMachineInstrByAddr s.pc.1 = none)
    (ht : DecodeStage P s t) : ScopeInvariant P completed undone t := by
  cases ht with
  | waits => exact h
  | @ends ee hifId hroom hmi =>
    have hpc := hend (by simp [hifId]) rfl rfl
    have hfetching : s.flushedFetchStage = false := by
      by_contra hflushed
      cases (h.flushed (Bool.not_eq_false _ ▸ hflushed)).1.symm.trans hifId
    have hahead : s.ahead = s.decoded ++ [ee, s.pc] := by
      unfold ahead
      rw [hifId, hfetching]
      simp
    have hahead' : ahead { s with ifId := none } = s.decoded ++ [s.pc] := by
      unfold ahead
      dsimp only
      rw [hfetching]
      simp [decoded]
    refine ⟨fun scope => ?_, fun scope => ?_, fun hflushed => by
      cases hfetching.symm.trans hflushed⟩
    · have hold := h.entered scope
      rw [hahead, ← List.append_assoc, incoming_append, tally_append] at hold
      rw [hahead', ← List.append_assoc, incoming_append, tally_append]
      simpa [incoming, scopesOf_of_none hmi, scopesOf_of_none hpc] using hold
    · have hold := h.left scope
      rw [hahead] at hold
      rw [hahead']
      cases hdecoded : s.decoded with
      | nil =>
        rw [hdecoded, incoming_append, tally_append] at hold
        rw [incoming_append, tally_append]
        simpa [incoming, scopesOf_of_none hmi, scopesOf_of_none hpc] using hold
      | cons =>
        rw [hdecoded] at hold
        exact hold
  | @decodes ee mi times hifId hroom =>
    have hahead : ahead { s with
        idEx := some ee, remainingExecutionTimes := times, ifId := none } = s.ahead := by
      unfold ahead decoded
      dsimp only
      rw [hifId, hroom]
      simp
    refine ⟨fun scope => ?_, fun scope => ?_, fun hflushed => ?_⟩
    · rw [hahead]
      exact h.entered scope
    · rw [hahead]
      exact h.left scope
    · cases (h.flushed hflushed).1.symm.trans hifId

/-- The scopes of the edge to where fetching goes on are entered. -/
theorem ScopeInvariant.fetchNext (h : ScopeInvariant P completed undone s)
    {last : ExecutionElement} (hlast : s.ahead.getLast? = some last)
    (hahead : t.ahead = s.ahead ++ [t.pc])
    (hentered : t.memory.entered =
      s.memory.entered ++ scopesOf P P.getEnteringScopes (some last, t.pc))
    (hleft : t.memory.left = s.memory.left) (hfetching : t.flushedFetchStage = false) :
    ScopeInvariant P completed undone t := by
  refine ⟨fun scope => ?_, fun scope => ?_, fun hflushed => by
      cases hfetching.symm.trans hflushed⟩
  · have hend : (completed ++ s.ahead).getLast? = some last := by
      rw [List.getLast?_append, hlast]
      rfl
    rw [hentered, List.count_append, h.entered, hahead, ← List.append_assoc,
      incoming_append none (completed ++ s.ahead), tally_append, hend]
    simp only [incoming, Option.some_or, tally_cons, tally_nil]
    omega
  · have htake : t.ahead.take 1 = s.ahead.take 1 := by
      rw [hahead]
      cases hcons : s.ahead with
      | nil =>
        rw [hcons] at hlast
        cases hlast
      | cons => rfl
    rw [hleft, htake]
    exact h.left scope

theorem enterAfterFlush_counting (hneed : P.needPersistenceScopes = true)
    (hfirst : s.ifId.or (s.idEx.or (s.exMem.or (s.memWb.or s.wbFin))) = some ee)
    (h : enterAfterFlush P M.counting s = .ok t) :
    (∃ memory, t = { s with memory }) ∧ t.memory.left = s.memory.left ∧
      t.memory.entered = s.memory.entered ++ scopesOf P P.getEnteringScopes (some ee, s.pc) := by
  unfold enterAfterFlush at h
  rw [if_pos hneed] at h
  obtain ⟨next, hnext, h⟩ := bind_eq_ok.mp h
  have hstages : [s.ifId, s.idEx, s.exMem, s.memWb, s.wbFin].findSome? id = some ee := by
    rw [← hfirst]
    cases s.ifId <;> cases s.idEx <;> cases s.exMem <;> cases s.memWb <;> cases s.wbFin <;> rfl
  cases (nextPopulatedStage_eq_ok.mp hnext).symm.trans hstages
  cases h
  obtain ⟨hentered, hleft⟩ := MemoryTopology.enterScopes_counting (M := M) s.memory
    (P.scopesBetween P.getEnteringScopes ee.1 s.pc.1)
  exact ⟨⟨_, rfl⟩, hleft, hentered⟩

/-- The scopes of the edge that was taken are entered when fetching starts over. -/
theorem ScopeInvariant.restartFetch (hneed : P.needPersistenceScopes = true)
    (hflushed : s.flushedFetchStage = true) (h : ScopeInvariant P completed undone s)
    (ht : restartFetch P M.counting s = .ok t) : ScopeInvariant P completed undone t := by
  obtain ⟨hifId, ee, hlast⟩ := h.flushed hflushed
  obtain ⟨u, hu, ht⟩ := bind_eq_ok.mp ht
  obtain ⟨id, memory, haccess, rfl⟩ := accessInstruction_eq_ok ht
  have hsame := sameScopes_of_accessInstr haccess
  have hfirst : s.ifId.or (s.idEx.or (s.exMem.or (s.memWb.or s.wbFin))) = some ee := by
    rw [getLast?_decoded] at hlast
    revert hlast
    rw [hifId]
    cases s.idEx <;> cases s.exMem <;> cases s.memWb <;> simp
  obtain ⟨⟨memory', rfl⟩, hleft, hentered⟩ := enterAfterFlush_counting (s := { s with
    instructionAccessFinished := false, flushedFetchStage := false }) hneed hfirst hu
  have hbefore : s.ahead = s.decoded := by
    unfold ahead
    rw [hflushed, hifId]
    simp
  refine h.fetchNext (hbefore ▸ hlast) ?_ ?_ ?_ rfl
  · rw [hbefore]
    unfold ahead
    dsimp only
    rw [hifId]
    simp [decoded]
  · exact hsame.entered.trans hentered
  · exact hsame.left.trans hleft

theorem ScopeInvariant.fetch (hneed : P.needPersistenceScopes = true) (hroom : s.ifId = none)
    (hfetching : s.flushedFetchStage = false) (h : ScopeInvariant P completed undone s)
    (ht : fetch P T M.counting s = .ok t) : ScopeInvariant P completed undone t := by
  obtain ⟨pc, hpc, ht⟩ := bind_eq_ok.mp ht
  rw [hneed, if_pos rfl] at ht
  dsimp only at ht
  obtain ⟨hentered, hleft⟩ := MemoryTopology.enterScopes_counting (M := M) s.memory
    (P.scopesBetween P.getEnteringScopes s.pc.1 pc.1)
  have hlast : s.ahead.getLast? = some s.pc := by
    unfold ahead
    rw [hfetching]
    exact List.getLast?_concat
  have hahead : s.decoded ++ [s.pc] ++ [pc] = s.ahead ++ [pc] := by
    unfold ahead
    rw [hroom, hfetching]
    simp
  have hfetched (memory : ScopeCounted μ) (id : Option ℕ)
      (hsame : (M.counting.enterScopes s.memory
        (P.scopesBetween P.getEnteringScopes s.pc.1 pc.1)).SameScopes memory) :
      ScopeInvariant P completed undone { s with
        pc, ifId := some s.pc, instructionAccessFinished := false, memory
        instructionAccessId := id } := by
    refine h.fetchNext hlast ?_ (hsame.entered.trans hentered) (hsame.left.trans hleft) hfetching
    rw [← hahead]
    unfold ahead
    dsimp only
    rw [hfetching]
    rfl
  split at ht
  · cases ht
    exact hfetched _ _ ⟨rfl, rfl⟩
  · split at ht
    · cases ht
      exact hfetched _ _ ⟨rfl, rfl⟩
    · obtain ⟨id, memory, haccess, rfl⟩ := accessInstruction_eq_ok ht
      exact hfetched _ _ (sameScopes_of_accessInstr haccess)

/-- The fetch stage enters the scopes of the edge to the next instruction. -/
theorem ScopeInvariant.fetchStage (hneed : P.needPersistenceScopes = true)
    (h : ScopeInvariant P completed undone s) (ht : FetchStage P T M.counting s t) :
    ScopeInvariant P completed undone t := by
  obtain ⟨memory, hmemory, hpolled⟩ := pollFetch_cases (M := M.counting) s
  have hsame : s.memory.SameScopes memory := by
    rcases hmemory with rfl | ⟨id, rfl⟩ <;> exact ⟨rfl, rfl⟩
  have hpoll : ScopeInvariant P completed undone (pollFetch M.counting s) ∧
      (pollFetch M.counting s).ifId = s.ifId ∧
      (pollFetch M.counting s).flushedFetchStage = s.flushedFetchStage := by
    rcases hpolled with heq | ⟨id, _, heq⟩ <;> rw [heq] <;>
      exact ⟨h.congr hsame rfl rfl rfl rfl, rfl, rfl⟩
  obtain ⟨hinvariant, hifId, hflag⟩ := hpoll
  cases ht with
  | restarts hflushed ht => exact h.restartFetch hneed hflushed ht
  | waits => exact hinvariant
  | fetches hflushed hroom _ ht =>
    exact hinvariant.fetch hneed (hifId.trans hroom) (hflag.trans hflushed) ht

end Stages

section Cycle

variable {dep : StateDep} {log : InOrderLog}

/-- What a flush undoes, by the stage that has flushed the pipeline. -/
theorem undoneBy_logOf (s memSucc execSucc decoded fetched : InOrderPipelineState μ)
    (accesses : List DataEvent) :
    undoneBy P (logOf s memSucc execSucc decoded fetched accesses) =
      if execSucc.flushedFetchStage then
        fetchedBehind P s (if memSucc.flushedFetchStage then s.exMem else memSucc.idEx)
      else fun scope => tally P P.getEnteringScopes [] scope := by
  funext scope
  unfold undoneBy logOf
  cases execSucc.flushedFetchStage <;> cases memSucc.flushedFetchStage <;> rfl

/-- Until the execute stage is done the pipeline is flushed at most once. -/
theorem ScopeInvariant.untilExecute (hneed : P.needPersistenceScopes = true)
    (hloads : LoadsReturn P T) (hstages : StageInvariant P T s)
    (hfetching : s.flushedFetchStage = false) {memory : ScopeCounted μ}
    {t u v w : InOrderPipelineState (ScopeCounted μ)} {events events' all : List DataEvent}
    (hpermitted : UndoesEntrances P s (logOf (s.started memory) t u v w all))
    (hsame : s.memory.SameScopes memory) (h : ScopeInvariant P completed undone s)
    (ht : MemoryStage P T M.counting dep (processWriteBackStage P M.counting (s.started memory)) t
      events)
    (hu : ExecuteStage P T M.counting dep t u events') :
    ScopeInvariant P (completed ++ s.memWb.toList)
        (fun scope => undone scope + undoneBy P (logOf (s.started memory) t u v w all) scope) u ∧
      (u.flushedFetchStage = false → u.pc = s.pc) := by
  have hstarted : ScopeInvariant P completed undone (s.started memory) :=
    h.congr hsame rfl rfl rfl rfl
  have hwritten := ScopeInvariant.writeBack (s := s.started memory) (M := M) hneed hfetching hstarted
  have hstagesS := (hstages.started memory).writeBack (M := M.counting)
  obtain ⟨memory', wbFin, heq, _⟩ :=
    processWriteBackStage_frame (P := P) (M := M.counting) (s.started memory)
  rw [heq] at ht hwritten hstagesS
  have hwritten : ScopeInvariant P (completed ++ s.memWb.toList) undone _ := hwritten
  have heffect := ht.effect
  have hstagesT := (hstagesS.memoryStage ht).1
  cases hflagT : t.flushedFetchStage with
  | true =>
    obtain ⟨ee, _, hee, _⟩ := heffect.2.2 hfetching hflagT
    have hee : s.exMem = some ee := hee
    have hidEx := (hstagesT.flushed hflagT).2.1
    have hwaits : u = t := by
      cases hu with
      | waits => rfl
      | continues hee => exact nomatch hidEx.symm.trans hee
      | ends hee => exact nomatch hidEx.symm.trans hee
      | leaves hee => exact nomatch hidEx.symm.trans hee
    subst hwaits
    have hflushed := hwritten.memoryStage hneed hstagesS hfetching ?_ ht
    · rcases hflushed with ⟨hflag, _⟩ | ⟨_, hflushed⟩
      · exact nomatch hflagT.symm.trans hflag
      · rw [undoneBy_logOf, hflagT, if_pos rfl, if_pos rfl]
        exact ⟨hflushed, fun hflag => nomatch hflag⟩
    · intro _ hstopped
      have hcause : (logOf (s.started memory) u u v w all).cause = some ee := by
        unfold logOf
        dsimp only
        rw [hflagT]
        exact hee
      have hnil := hpermitted.1 (by rw [hcause]; rfl) hstopped
      rw [hcause, ← hee] at hnil
      exact hnil
  | false =>
    rcases hwritten.memoryStage hneed hstagesS hfetching (fun hflag => nomatch hflagT.symm.trans
      hflag) ht with ⟨_, hkept, hifId, hpc⟩ | ⟨hflag, _⟩
    · have hifId : t.ifId = s.ifId := hifId
      have hpc : t.pc = s.pc := hpc
      have hflushed := hkept.executeStage hneed hloads hstagesT hflagT ?_ hu
      · rcases hflushed with ⟨hflagU, hflushed, _, hpcU⟩ | ⟨hflagU, hflushed⟩
        · rw [undoneBy_logOf, hflagU]
          exact ⟨hflushed, fun _ => hpcU.trans hpc⟩
        · have hbehind : fetchedBehind P (s.started memory) t.idEx = fetchedBehind P t t.idEx := by
            funext scope
            unfold fetchedBehind
            rw [hifId, hpc]
            rfl
          rw [undoneBy_logOf, hflagT, hflagU, if_pos rfl, if_neg Bool.false_ne_true, hbehind]
          exact ⟨hflushed, fun hflag => nomatch hflag⟩
      · intro hflagU hstopped
        obtain ⟨ee, _, hee, _⟩ := hu.effect.2.2 hflagT hflagU
        have hcause : (logOf (s.started memory) t u v w all).cause = some ee := by
          unfold logOf
          dsimp only
          rw [hflagT, hflagU]
          exact hee
        have hbefore := stopped_of_memoryStage hstagesS ht hstopped
        have hnil := hpermitted.1 (by rw [hcause]; rfl) hbefore
        rw [hcause] at hnil
        rw [hee, hifId, hpc]
        exact hnil
    · exact nomatch hflagT.symm.trans hflag

theorem ScopeInvariant.cycles (hneed : P.needPersistenceScopes = true)
    (hloads : LoadsReturn P T) (hstages : StageInvariant P T s)
    (hfetching : s.flushedFetchStage = false) (hpermitted : UndoesEntrances P s log)
    (h : ScopeInvariant P completed undone s) (hcycle : Cycles P T M.counting dep s t log) :
    ScopeInvariant P (completed ++ log.completed)
      (fun scope => undone scope + undoneBy P log scope) t := by
  cases hcycle with
  | stalls hmemory _ _ hforward =>
    have hsame := (sameScopes_of_memoryCycles hmemory).trans (sameScopes_of_forwards hforward)
    rw [List.append_nil]
    exact h.congr hsame rfl rfl rfl rfl
  | @runs memory memory' t u v w events events' hmemory hfinal hstall ht hu hv hw hforward =>
    obtain ⟨hexecuted, hpc⟩ := h.untilExecute hneed hloads hstages hfetching hpermitted
      (sameScopes_of_memoryCycles hmemory) ht hu
    have hdecoded := hexecuted.decodeStage ?_ hv
    · exact (hdecoded.fetchStage hneed hw).congr (sameScopes_of_forwards hforward) rfl rfl rfl rfl
    · intro hifId hnone hidEx
      have hfetchingU : u.flushedFetchStage = false := by
        by_contra hflushed
        exact hifId (hexecuted.flushed (Bool.not_eq_false _ ▸ hflushed)).1
      rw [hpc hfetchingU]
      apply hpermitted.2
      unfold logOf
      dsimp only
      rw [hnone, hidEx]
      simpa [Option.toList_eq_nil_iff] using hifId

end Cycle

section Run

/-- In a run whose flushes undo what was entered, the scopes are balanced. -/
theorem undoneScopesBalanced_of_run (hneed : P.needPersistenceScopes = true) (hloads : LoadsReturn P T)
    (htakes : TakesTime P) {addrInfo : AddressInformation} {logs : List InOrderLog}
    (h : Run P T M.counting addrInfo (UndoesEntrances P) logs s) : ScopesBalanced P logs s := by
  have hinvariant : ScopeInvariant P (logs.flatMap InOrderLog.completed) (undoneInRun P logs) s := by
    induction h with
    | new hs =>
      obtain ⟨⟨id, memory⟩, haccess, hs⟩ := bind_eq_ok.mp hs
      cases hs
      obtain ⟨hentered, hleft⟩ := sameScopes_of_accessInstr haccess
      refine ⟨fun scope => ?_, fun scope => ?_, fun hflushed => nomatch hflushed⟩
      · exact congrArg (List.count scope) hentered
      · exact congrArg (List.count scope) hleft
    | @cycle logs ins2ctx s s' log hrun hpermitted hs' ih =>
      have hstages := runInvariant_of_run hloads htakes hrun
      have hcycled := ih.cycles hneed hloads hstages.stages hstages.fetching hpermitted
        (cycles_of_observedCycle hs')
      have hundone : undoneInRun P (logs ++ [log]) =
          fun scope => undoneInRun P logs scope + undoneBy P log scope := by
        funext scope
        simp [undoneInRun]
      rw [List.flatMap_append, List.flatMap_singleton, hundone]
      exact hcycled
    | @isFinal logs s _ ee ih =>
      obtain ⟨wbFin, heq, _⟩ := isFinal_frame (P := P) (M := M.counting) s ee
      rw [heq]
      exact ih.congr ⟨rfl, rfl⟩ rfl rfl rfl rfl
    | resetLocalMetrics _ ih => exact ih.congr ⟨rfl, rfl⟩ rfl rfl rfl rfl
    | useBranchAssumption _ ih => exact ih.congr ⟨rfl, rfl⟩ rfl rfl rfl rfl
    | useReturnAssumption _ ih => exact ih.congr ⟨rfl, rfl⟩ rfl rfl rfl rfl
  refine ⟨hinvariant.entered, hinvariant.left, fun scope => ?_⟩
  unfold ScopeCounted.net
  rw [hinvariant.entered, hinvariant.left]
  push_cast
  ring

end Run

section Samples

open OutOfOrderPipelineState (simpleInstr branchInstr oneCycleTopology)

/-- A conditional branch over a block that is a scope. -/
def scopedBranch : Program :=
  { loadAndBranch with
    getMachineInstrByAddr := fun addr =>
      match addr with
      | 0 => some simpleInstr
      | 4 => some (branchInstr 0 2 true)
      | 8 => some { simpleInstr with getParent := 1 }
      | 12 => some { simpleInstr with getParent := 2 }
      | _ => none
    needPersistenceScopes := true
    getEnteringScopes := fun edge => if edge = (0, 1) then [0] else []
    getLeavingScopes := fun edge => if edge = (1, 2) then [0] else [] }

def strictMode : InOrderTarget := { normalMode with strictInOrder := true }

instance (s : InOrderPipelineState μ) : Decidable (Stopped s) :=
  inferInstanceAs (Decidable (_ ∧ _))

instance (P : Program) (s : InOrderPipelineState μ) (log : InOrderLog) :
    Decidable (UndoesEntrances P s log) :=
  inferInstanceAs (Decidable ((_ → _ → _) ∧ (_ → _)))

/-- The block behind a branch that is taken is left when it is flushed. -/
theorem undoneScopesBalanced_scopedBranch : ∃ logs s,
    ScopesBalanced scopedBranch logs s ∧ (logs.flatMap InOrderLog.flushed).map Prod.fst = [8] ∧
      (s : InOrderPipelineState (ScopeCounted (SingleMemoryTopology FixedLatencyCyclingMemory))
        ).memory.left = [0] := by
  have hloads : LoadsReturn scopedBranch normalMode := fun _ _ _ h => nomatch h
  have htakes : TakesTime scopedBranch := by
    rintro _ _ ⟨⟩
    exact List.cons_ne_nil _ _
  have hrun : Run scopedBranch normalMode oneCycleTopology.counting twoAccesses
      (UndoesEntrances scopedBranch) _ _ :=
    run_sampleAfter [0, 0, 0, 1, 0, 0, 0, 0] rfl
  exact ⟨_, _, undoneScopesBalanced_of_run rfl hloads htakes hrun, by decide +kernel, by decide +kernel⟩

/-- In strict in-order mode the block behind a branch is entered when the branch is fetched, but
it is not accessed. If the branch is taken, then the scope is not left. -/
theorem entrance_not_undone : ∃ logs s,
    Run scopedBranch strictMode oneCycleTopology.counting twoAccesses (fun _ _ => True) logs s ∧
      ¬ ScopesBalanced scopedBranch logs s := by
  refine ⟨_, _, run_sampleAfter [0, 0, 0, 1, 0, 0, 0, 0] rfl, ?_⟩
  intro h
  have hnet := h.net 0
  revert hnet
  decide +kernel

end Samples

end Llvmta.MicroArch.InOrderPipelineState
