import Llvmta.Library.Fifo
import Llvmta.MicroarchitecturalAnalysis.OutOfOrderTags

/-!
# Conservation of instructions in the out-of-order pipeline

The instructions in flight are those in the reorder buffer and then those in the queue. In a
cycle they are a queue: what is fetched is put behind them and what is committed was in
front; a flush drops the others. Behind a return or a jump table nothing is fetched, so that
no instruction is committed behind one that flushes the pipeline.
-/

namespace Llvmta.MicroArch.OutOfOrderPipelineState

open Checked ReservationStation

variable (P : Program) {μ : Type} (M : MemoryTopology μ)

/-- Fetching stops behind the element. -/
def EndsFetch (ee : ExecutionElement) : Prop :=
  ∃ mi, P.getMachineInstrByAddr ee.1 = some mi ∧ (mi.isReturn || mi.isJumpTableBranch) = true

/-- The commit of the element can flush the pipeline. -/
def Flushes (ee : ExecutionElement) : Prop :=
  ∃ mi, P.getMachineInstrByAddr ee.1 = some mi ∧ changesControlFlow mi = true

/-- Nothing was fetched behind an element that ends the fetch, which is stalled behind it. -/
structure FetchesUntil (stallFetch : Bool) (elements : List ExecutionElement) : Prop where
  last : ∀ ee ∈ elements.dropLast, ¬ EndsFetch P ee
  fetching : stallFetch = false → ∀ ee ∈ elements, ¬ EndsFetch P ee

/-- Each instruction of the program is accepted by one of the stations. -/
def AcceptedOnce : Prop :=
  ∀ addr mi, P.getMachineInstrByAddr addr = some mi → ∃! k : ℕ,
    initialStations[k]?.any (·.canExecuteInstruction initialUnits mi) = true

/-- The state of a cycle in which the next instruction is issued. -/
def BeforeIssue (dep : StateDep) (s u : OutOfOrderPipelineState μ) : Prop :=
  ∃ memory v funcUnits resStations reOrderBuffer regStatTabl tempFi,
    Leads (M.cycle false) s.memory memory ∧
    UnitsCycle P M dep.addrInfo (List.range s.funcUnits.length) (started s memory) v ∧
    cycleAll P v.reOrderBuffer v.commonDataBus v.funcUnits v.resStations =
      .ok (funcUnits, resStations) ∧
    v.reOrderBuffer.cycle P v.regStatTabl v.commonDataBus =
      .ok (reOrderBuffer, regStatTabl, tempFi) ∧
    u = { v with
      funcUnits, resStations, reOrderBuffer, regStatTabl
      finalInstructions := v.finalInstructions ++ tempFi }

variable {P M} {s s' t u : OutOfOrderPipelineState μ} {l : List ReOrderBufferElement}
  {stallFetch : Bool} {elements front back : List ExecutionElement}

section Fetch

theorem FetchesUntil.of_append (h : FetchesUntil P stallFetch (front ++ back)) :
    FetchesUntil P stallFetch back := by
  refine ⟨fun ee hee => ?_, fun hfetch ee hee => ?_⟩
  · cases back with
    | nil => exact nomatch hee
    | cons ee' back =>
      apply h.last
      rw [List.dropLast_append_cons]
      exact List.mem_append_right _ hee
  · exact h.fetching hfetch ee (List.mem_append_right _ hee)

theorem FetchesUntil.of_mem_dropLast (h : FetchesUntil P stallFetch (front ++ back))
    {ee : ExecutionElement} (hee : ee ∈ front.dropLast) : ¬ EndsFetch P ee := by
  apply h.last
  cases back with
  | nil => rwa [List.append_nil]
  | cons ee' back =>
    rw [List.dropLast_append_cons]
    exact List.mem_append_left _ (List.mem_of_mem_dropLast hee)

/-- Filling the queue leaves the other components as they are. -/
theorem holdsTags_of_fills {ins2ctx : InstrContextMapping} {fetched : List ExecutionElement}
    (h : HoldsTags s l none) (ht : Fills P M ins2ctx s t fetched)
    (hs : FetchesUntil P s.instructionQueue.stallFetch elements) :
    HoldsTags t l none ∧ SameBuffers s t ∧
      t.instructionQueue.queue = s.instructionQueue.queue ++ fetched ∧
      FetchesUntil P t.instructionQueue.stallFetch (elements ++ fetched) := by
  cases ht with
  | skips => exact ⟨h, .refl _, by simp, by simpa using hs⟩
  | waits =>
    exact ⟨h.congr ⟨rfl, rfl, rfl⟩ rfl, ⟨rfl, rfl, rfl⟩, by simp, by simpa using hs⟩
  | ends =>
    refine ⟨h.congr ⟨rfl, rfl, rfl⟩ rfl, ⟨rfl, rfl, rfl⟩, by simp, ?_, fun hfetch => nomatch hfetch⟩
    simpa using hs.last
  | stops _ hfetch _ _ _ hu =>
    rw [branchEarly_eq_ok hu]
    refine ⟨h.congr ⟨rfl, rfl, rfl⟩ rfl, ⟨rfl, rfl, rfl⟩, rfl, ?_, fun hfetch => nomatch hfetch⟩
    rw [List.dropLast_concat]
    exact hs.fetching hfetch
  | continues _ hfetch _ _ hmi hu hcontinues hv ht =>
    obtain ⟨id, memory, _, rfl⟩ := startAccess_eq_ok ht
    have hall : ∀ ee ∈ elements ++ [s.pc], ¬ EndsFetch P ee := by
      intro ee hee
      rcases List.mem_append.mp hee with hee | hee
      · exact hs.fetching hfetch ee hee
      · cases List.mem_singleton.mp hee
        rintro ⟨mi', hmi', hends⟩
        cases hmi.symm.trans hmi'
        rw [hcontinues] at hends
        exact nomatch hends
    have hfetches (stallFetch : Bool) : FetchesUntil P stallFetch (elements ++ [s.pc]) :=
      ⟨fun ee hee => hall ee (List.mem_of_mem_dropLast hee), fun _ => hall⟩
    rw [branchEarly_eq_ok hu] at hv
    rcases enterScopesFrom_eq_ok hv with rfl | ⟨scopes, entrances, _, _, _, _, rfl⟩
    · exact ⟨h.congr ⟨rfl, rfl, rfl⟩ rfl, ⟨rfl, rfl, rfl⟩, rfl, hfetches _⟩
    · exact ⟨h.congr ⟨rfl, rfl, rfl⟩ rfl, ⟨rfl, rfl, rfl⟩, rfl, hfetches _⟩

end Fetch

section Commit

/-- A flushed pipeline. -/
structure Emptied (s : OutOfOrderPipelineState μ) : Prop where
  holdsTags : HoldsTags s [] none
  queue : s.instructionQueue.queue = []
  regStatTabl : s.regStatTabl = .new
  resStations : ∀ rS ∈ s.resStations, rS.reservationStation = []

theorem emptied_of_emptyPipeline {committedInstr : ℕ} (h : HoldsTags s l none)
    (ht : emptyPipeline P M s committedInstr = .ok t) : Emptied t := by
  obtain ⟨left, v, reOrderBuffer, hleft, hv, hflush, rfl⟩ := emptyPipeline_eq_ok ht
  obtain ⟨w, id, memory, hw, _, rfl⟩ := flushQueue_eq_ok hv
  have hkept : left.reOrderBuffer = s.reOrderBuffer ∧ left.resStations = s.resStations ∧
      left.funcUnits = s.funcUnits := by
    rw [hleft]
    split_ifs <;> exact ⟨rfl, rfl, rfl⟩
  have hsame : w.reOrderBuffer = left.reOrderBuffer ∧ w.resStations = left.resStations ∧
      w.funcUnits = left.funcUnits ∧ w.instructionQueue.queue = [] := by
    rcases enterScopesFrom_eq_ok hw with rfl | ⟨scopes, entrances, _, _, _, _, rfl⟩
    · exact ⟨rfl, rfl, rfl, rfl⟩
    · exact ⟨rfl, rfl, rfl, rfl⟩
  obtain ⟨hrob, hstations, hunits, hqueue⟩ := hsame
  rw [hkept.1] at hrob
  rw [hkept.2.1] at hstations
  rw [hkept.2.2] at hunits
  have hflush : w.reOrderBuffer.flush = .ok reOrderBuffer := hflush
  have hempty : reOrderBuffer.Holds [] := (hrob ▸ h.holds).flush_eq_ok hflush
  refine ⟨⟨hempty, fun tag => ?_, ⟨?_, ?_⟩, ?_⟩, hqueue, rfl, ?_⟩
  · have hnone : reOrderBuffer.isExecuting tag = false := by
      rw [Bool.eq_false_iff, Ne, hempty.isExecuting_iff]
      rintro ⟨k, elem, _, hk, _⟩
      cases hk
    rw [hnone, heldTags_eq]
    simp
  · intro fu hfu
    obtain ⟨fu₀, _, rfl⟩ := List.mem_map.mp hfu
    simp [FunctionalUnit.flush_eq]
  · rw [List.map_map, hunits, ← h.units.kinds]
    exact List.map_congr_left fun fu _ => (FunctionalUnit.flush_eq fu).2
  · rw [List.map_map, hstations, ← h.stations]
    exact List.map_congr_left fun rS _ => rfl
  · intro rS hrS
    obtain ⟨rS₀, _, rfl⟩ := List.mem_map.mp hrS
    rfl

/-- The last of the committed instructions may flush the pipeline. -/
theorem handles_cases {ins2ctx : InstrContextMapping} {fis : List ExecutionElement}
    {flushed : Bool} (h : HoldsTags s l none) (hplain : ∀ ee ∈ fis.dropLast, ¬ Flushes P ee)
    (ht : Handles P M ins2ctx fis s t flushed) :
    flushed = false ∧ SameBuffers s t ∧ t.funcUnits = s.funcUnits ∧
        t.instructionQueue = s.instructionQueue ∨
      flushed = true ∧ Emptied t ∧ ∃ front ee, fis = front ++ [ee] ∧ Flushes P ee := by
  have hcommits (fi : ExecutionElement) {s : OutOfOrderPipelineState μ} :
      SameBuffers s (commits P s fi) ∧ (commits P s fi).funcUnits = s.funcUnits ∧
        (commits P s fi).instructionQueue = s.instructionQueue := by
    obtain ⟨entrances, heq⟩ := commits_eq (P := P) s fi
    rw [heq]
    exact ⟨⟨rfl, rfl, rfl⟩, rfl, rfl⟩
  have hbranch {fi : ExecutionElement} {m : MicroArchitecturalState}
      {s t : OutOfOrderPipelineState μ} (h : HoldsTags s l none)
      (ht : emptyPipeline P M { commits P s fi with toMicroArchitecturalState := m } fi.1 = .ok t) :
      Emptied t := by
    obtain ⟨hsame, hunits, _⟩ := hcommits fi (s := s)
    apply emptied_of_emptyPipeline (l := l) _ ht
    exact (h.congr hsame hunits).congr ⟨rfl, rfl, rfl⟩ rfl
  induction ht with
  | nil => exact .inl ⟨rfl, .refl _, rfl, rfl⟩
  | @plain fi fis mi s w flushed hmi hcontrol _ ih =>
    obtain ⟨hsame, hunits, hqueue⟩ := hcommits fi (s := s)
    have hrest : ∀ ee ∈ fis.dropLast, ¬ Flushes P ee := by
      intro ee hee
      cases fis with
      | nil => exact nomatch hee
      | cons fi' fis => exact hplain ee (List.mem_cons_of_mem _ hee)
    rcases ih (h.congr hsame hunits) hrest with ⟨hflag, hsame', hunits', hqueue'⟩ | ⟨hflag, hempty,
      front, ee, rfl, hee⟩
    · exact .inl ⟨hflag, hsame.trans hsame', hunits'.trans hunits, hqueue'.trans hqueue⟩
    · exact .inr ⟨hflag, hempty, fi :: front, ee, rfl, hee⟩
  | @branch fi fis mi s t w m flushed hmi hcontrol _ ht hw _ =>
    have hfi : Flushes P fi := ⟨mi, hmi, hcontrol⟩
    cases fis with
    | nil =>
      cases hw
      exact .inr ⟨rfl, hbranch h ht, [], fi, rfl, hfi⟩
    | cons fi' fis => exact absurd hfi (hplain fi List.mem_cons_self)
  | @flushedAlternative fi fis mi s w m hmi hcontrol _ hw =>
    have hfi : Flushes P fi := ⟨mi, hmi, hcontrol⟩
    cases fis with
    | nil => exact .inr ⟨rfl, hbranch h hw, [], fi, rfl, hfi⟩
    | cons fi' fis => exact absurd hfi (hplain fi List.mem_cons_self)
  | @alternative fi fis mi s m hmi hcontrol _ _ =>
    obtain ⟨hsame, hunits, hqueue⟩ := hcommits fi (s := s)
    exact .inl ⟨rfl, hsame.trans ⟨rfl, rfl, rfl⟩, hunits, hqueue⟩

/-- Closing scopes concerns the memory only. -/
theorem closes_eq (s : OutOfOrderPipelineState μ) (tempFi : List ExecutionElement) :
    ∃ memory, closes P M s tempFi = { s with memory } := by
  unfold closes
  split_ifs
  · induction tempFi generalizing s with
    | nil => exact ⟨s.memory, rfl⟩
    | cons fi fis ih =>
      cases fis with
      | nil => exact ⟨_, rfl⟩
      | cons nextfi fis =>
        obtain ⟨memory, hmemory⟩ := ih (leavePersistenceScope P M s fi.1 nextfi.1)
        exact ⟨memory, hmemory⟩
  · exact ⟨s.memory, rfl⟩

end Commit

section Cycle

/-- What is in flight while the elements stand in the reorder buffer. -/
def flight (s : OutOfOrderPipelineState μ) (l : List ReOrderBufferElement) :
    List ExecutionElement :=
  l.map ReOrderBufferElement.executionElement ++ s.instructionQueue.queue

theorem HoldsTags.inFlight_eq {bus : Option RobTag} (h : HoldsTags s l bus) :
    s.inFlight = flight s l := by
  unfold inFlight
  rw [h.holds.elements_eq]
  rfl

variable (P) in
/-- What the phases of a cycle preserve of the buffers, and what a flush establishes. -/
structure PhaseInvariant (I : OutOfOrderPipelineState μ → List ReOrderBufferElement → Prop) :
    Prop where
  frame : ∀ {s t l}, I s l → SameBuffers s t → I t l
  buffers : ∀ {s : OutOfOrderPipelineState μ} {l rest : List ReOrderBufferElement} {funcUnits
    resStations reOrderBuffer regStatTabl tempFi finalInstructions}, HoldsTags s l s.commonDataBus →
    cycleAll P s.reOrderBuffer s.commonDataBus s.funcUnits s.resStations =
      .ok (funcUnits, resStations) →
    s.reOrderBuffer.cycle P s.regStatTabl s.commonDataBus =
      .ok (reOrderBuffer, regStatTabl, tempFi) →
    HoldsTags { s with
      funcUnits, resStations, reOrderBuffer, regStatTabl, finalInstructions } rest none → I s l →
    I { s with funcUnits, resStations, reOrderBuffer, regStatTabl, finalInstructions } rest
  issue : ∀ {s s' : OutOfOrderPipelineState μ} {l elem ee mi k}, HoldsTags s l none →
    P.getMachineInstrByAddr ee.1 = some mi → issueTo P s ee mi k = .ok s' →
    HoldsTags s' (l ++ [elem]) none → I s l → I s' (l ++ [elem])
  emptied : ∀ {s}, Emptied s → I s []

variable {I : OutOfOrderPipelineState μ → List ReOrderBufferElement → Prop}

/-- Issuing moves an element from the queue to the reorder buffer. -/
theorem HoldsTags.tryIssueInstr (hI : PhaseInvariant P I) (h : HoldsTags s l none) (hs : I s l)
    (ht : tryIssueInstr P s = .ok t) :
    ∃ l', HoldsTags t l' none ∧ I t l' ∧ flight t l' = flight s l ∧
      t.instructionQueue.stallFetch = s.instructionQueue.stallFetch := by
  let H (x : OutOfOrderPipelineState μ) : Prop := ∃ l', HoldsTags x l' none ∧ I x l' ∧
    flight x l' = flight s l ∧
    x.instructionQueue.stallFetch = s.instructionQueue.stallFetch
  apply tryIssueInstr_invariant (I := H) _ ⟨l, h, hs, rfl, rfl⟩ ht
  rintro x x' ee mi k hmi _ ⟨l', hx, hIx, hflight, hstall⟩ hissue
  obtain ⟨elem, rfl, hx', hqueue⟩ := hx.issueTo hissue
  refine ⟨l' ++ [elem], hx', hI.issue hx hmi hissue hx' hIx, ?_, ?_⟩
  · rw [← hflight]
    unfold flight
    rw [hqueue, List.map_append, List.append_assoc]
    rfl
  · rw [← hstall]
    obtain ⟨_, _, _, _, _, _, _, _, _, _, rfl⟩ := issueTo_eq_ok hissue
    rfl

/-- What is in flight while stations, reorder buffer and queue are cycled, and what is
committed: only its last element can flush the pipeline. -/
theorem HoldsTags.components (hI : PhaseInvariant P I) {ins2ctx : InstrContextMapping}
    {fetched tempFi : List ExecutionElement} (h : HoldsTags s l s.commonDataBus) (hIs : I s l)
    (hs : FetchesUntil P s.instructionQueue.stallFetch (flight s l))
    (ht : cycleComponents P M ins2ctx s = .ok (t, fetched, tempFi)) :
    ∃ funcUnits resStations reOrderBuffer regStatTabl x l',
      OutOfOrderPipelineState.tryIssueInstr P { s with
        funcUnits, resStations, reOrderBuffer, regStatTabl
        finalInstructions := s.finalInstructions ++ tempFi } = .ok x ∧
      Fills P M ins2ctx x t fetched ∧ HoldsTags x l' none ∧ HoldsTags t l' none ∧ I t l' ∧
      flight s l = tempFi ++ flight x l' ∧ flight s l ++ fetched = tempFi ++ flight t l' ∧
      FetchesUntil P t.instructionQueue.stallFetch (tempFi ++ flight t l') ∧
      ∀ ee ∈ tempFi.dropLast, ¬ Flushes P ee := by
  obtain ⟨funcUnits, resStations, reOrderBuffer, regStatTabl, x, hstations, hrob, hx, hfills⟩ :=
    cycleComponents_eq_ok ht
  obtain ⟨rest, hrest, hcommitted, hlast⟩ := h.cycleBuffers hstations hrob
  have hIrest := hI.buffers h hstations hrob hrest hIs
  obtain ⟨l', hx', hIx, hflight, hstall⟩ := hrest.tryIssueInstr hI hIrest hx
  have hsplit : flight s l = tempFi ++ flight x l' := by
    rw [hflight]
    unfold flight
    rw [hcommitted, List.append_assoc]
  have hstall : x.instructionQueue.stallFetch = s.instructionQueue.stallFetch := hstall
  obtain ⟨ht', htsame, htqueue, htfetch⟩ := holdsTags_of_fills hx' hfills (hstall ▸ hs)
  have htflight : flight s l ++ fetched = tempFi ++ flight t l' := by
    unfold flight at hsplit ⊢
    rw [hsplit, htqueue]
    simp only [List.append_assoc]
  rw [htflight] at htfetch
  refine ⟨funcUnits, resStations, reOrderBuffer, regStatTabl, x, l', hx, hfills, hx', ht',
    hI.frame hIx htsame, hsplit, htflight, htfetch, ?_⟩
  rintro ee hee ⟨mi, hmi, hcontrol⟩
  obtain ⟨mi', hmi', hends⟩ := hlast ee hee
  cases hmi.symm.trans hmi'
  apply htfetch.of_mem_dropLast hee
  refine ⟨mi, hmi, ?_⟩
  revert hends hcontrol
  unfold ReOrderBuffer.endsCommit changesControlFlow
  cases mi.isConditionalBranch <;> cases mi.isCall <;> cases mi.isReturn <;> simp

/-- A cycle is a round of the queue of what is in flight. -/
theorem HoldsTags.cycles (hI : PhaseInvariant P I) {dep : StateDep} {log : CycleLog}
    (h : HoldsTags s l none) (hIs : I s l)
    (hs : FetchesUntil P s.instructionQueue.stallFetch (flight s l))
    (ht : Cycles P M dep s t log) :
    ∃ l', HoldsTags t l' none ∧ I t l' ∧
      FetchesUntil P t.instructionQueue.stallFetch (flight t l') ∧
      Fifo.Round (Flushes P) (flight s l) log.fetched log.committed log.flushed (flight t l') := by
  cases ht with
  | stalls =>
    refine ⟨l, h.congr ⟨rfl, rfl, rfl⟩ rfl, hI.frame hIs ⟨rfl, rfl, rfl⟩, hs, fun _ => ?_,
      fun h => nomatch h⟩
    exact List.append_nil _
  | @runs memory memory' u v w fetched tempFi flushed _ _ hu hv hw _ =>
    have hstarted : HoldsTags (started s memory) l (started s memory).commonDataBus :=
      h.congr ⟨rfl, rfl, rfl⟩ rfl
    obtain ⟨hunits, hsame, hqueue⟩ := hstarted.unitsCycle hu
    have hqueue : u.instructionQueue = s.instructionQueue := hqueue
    have hIu := hI.frame (hI.frame (t := started s memory) hIs ⟨rfl, rfl, rfl⟩) hsame
    have hflightu : flight u l = flight s l := by
      unfold flight
      rw [hqueue]
    rw [← hflightu, ← hqueue] at hs
    obtain ⟨_, _, _, _, x, l', _, _, _, hv', hIv, _, hvflight, hvfetch, hplain⟩ :=
      hunits.components hI hIu hs hv
    rw [hflightu] at hvflight
    obtain ⟨memory₂, hcloses⟩ := closes_eq (P := P) (M := M) { w with memory := memory' } tempFi
    rw [hcloses]
    rcases handles_cases hv' hplain hw with ⟨rfl, hsame', hunits', hqueue'⟩ | ⟨rfl, hempty, front,
      ee, rfl, hee⟩
    · have hflight' : flight w l' = flight v l' := by
        unfold flight
        rw [hqueue']
      refine ⟨l', (hv'.congr hsame' hunits').congr ⟨rfl, rfl, rfl⟩ rfl,
        hI.frame hIv (hsame'.trans ⟨rfl, rfl, rfl⟩), ?_, fun _ => ?_,
        fun h => nomatch h⟩
      · have hstay := hvfetch.of_append
        rw [← hflight', ← hqueue'] at hstay
        exact hstay
      · rw [hvflight, ← hflight']
        rfl
    · have hnothing : flight w [] = [] := hempty.queue
      refine ⟨[], hempty.holdsTags.congr ⟨rfl, rfl, rfl⟩ rfl,
        hI.frame (hI.emptied hempty) ⟨rfl, rfl, rfl⟩, ?_, (fun h => nomatch h),
        fun _ => ⟨hnothing, front, ee, flight v l', rfl, hee, hvflight⟩⟩
      have hstay : FetchesUntil P w.instructionQueue.stallFetch (flight w []) := by
        rw [hnothing]
        exact ⟨(fun ee hee => nomatch hee), fun _ ee hee => nomatch hee⟩
      exact hstay

/-- In every run the tags are held, what was fetched is accounted for, and the invariant
holds of the buffers. -/
theorem holdsTags_of_run (hI : PhaseInvariant P I) {permitted : OutOfOrderPipelineState μ → Prop}
    {logs : List CycleLog} (h : Run P M permitted logs s) :
    ∃ l, HoldsTags s l none ∧ I s l ∧
      FetchesUntil P s.instructionQueue.stallFetch (flight s l) ∧
      Fifo.Accounts (Flushes P) (logs.flatMap CycleLog.fetched)
        (logs.flatMap CycleLog.committed) (flight s l) := by
  have hother {logs : List CycleLog} {s t : OutOfOrderPipelineState μ}
      (h : ∃ l, HoldsTags s l none ∧ I s l ∧
        FetchesUntil P s.instructionQueue.stallFetch (flight s l) ∧
        Fifo.Accounts (Flushes P) (logs.flatMap CycleLog.fetched)
          (logs.flatMap CycleLog.committed) (flight s l))
      (hsame : SameBuffers s t) (hunits : t.funcUnits = s.funcUnits)
      (hqueue : t.instructionQueue = s.instructionQueue) :
      ∃ l, HoldsTags t l none ∧ I t l ∧
        FetchesUntil P t.instructionQueue.stallFetch (flight t l) ∧
        Fifo.Accounts (Flushes P) (logs.flatMap CycleLog.fetched)
          (logs.flatMap CycleLog.committed) (flight t l) := by
    obtain ⟨l, hl, hIl, hfetch, haccounts⟩ := h
    have hflight : flight t l = flight s l := by
      unfold flight
      rw [hqueue]
    refine ⟨l, hl.congr hsame hunits, hI.frame hIl hsame, ?_, ?_⟩
    · rwa [hflight, hqueue]
    · rwa [hflight]
  induction h with
  | new hs =>
    have hnew := holdsTags_new hs
    obtain ⟨id, memory, _, rfl⟩ := startAccess_eq_ok hs
    have hstations : ∀ rS ∈ initialStations, rS.reservationStation = [] := by decide
    exact ⟨[], hnew, hI.emptied ⟨hnew, rfl, rfl, hstations⟩,
      ⟨(fun ee hee => nomatch hee), fun _ ee hee => nomatch hee⟩, Fifo.accounts_nil⟩
  | cycle _ _ hs' ih =>
    obtain ⟨l, hl, hIl, hfetch, haccounts⟩ := ih
    obtain ⟨results, hresults, hmem⟩ := hs'
    obtain ⟨l', hl', hIl', hfetch', hround⟩ :=
      hl.cycles hI hIl hfetch (cycles_of_observedCycle hresults hmem)
    refine ⟨l', hl', hIl', hfetch', ?_⟩
    simpa using haccounts.step hround
  | isFinal _ ee ih =>
    unfold isFinal
    split_ifs
    · exact ih
    · exact hother ih ⟨rfl, rfl, rfl⟩ rfl rfl
  | resetLocalMetrics _ ih => exact hother ih ⟨rfl, rfl, rfl⟩ rfl rfl
  | useBranchAssumption _ ih => exact hother ih ⟨rfl, rfl, rfl⟩ rfl rfl
  | useReturnAssumption _ ih => exact hother ih ⟨rfl, rfl, rfl⟩ rfl rfl

end Cycle

section Issue

/-- Which stations accept an instruction never changes. -/
theorem HoldsTags.any_canExecuteInstruction {bus : Option RobTag} (h : HoldsTags s l bus) (k : ℕ)
    (mi : MachineInstr) : s.resStations[k]?.any (·.canExecuteInstruction s.funcUnits mi) =
      initialStations[k]?.any (·.canExecuteInstruction initialUnits mi) := by
  have hunits (units : List FunctionalUnit) (rS : ReservationStation) :
      rS.canExecuteInstruction units mi = rS.funcUnits.any fun i =>
        (units.map FunctionalUnit.canExecuteInstruction)[i]?.any (· mi) := by
    unfold ReservationStation.canExecuteInstruction
    congr 1
    funext i
    rw [List.getElem?_map, Option.any_map]
  have hstations (units : List FunctionalUnit) (resStations : List ReservationStation) :
      resStations[k]?.any (·.canExecuteInstruction units mi) =
        (resStations.map ReservationStation.funcUnits)[k]?.any fun funcUnits => funcUnits.any fun i =>
          (units.map FunctionalUnit.canExecuteInstruction)[i]?.any (· mi) := by
    rw [List.getElem?_map, Option.any_map]
    congr 1
    funext rS
    exact hunits units rS
  rw [hstations, hstations, h.stations, h.units.kinds]

/-- A round of the outer loop for a station that accepts the instruction issues it there. -/
theorem HoldsTags.issueRound {ee : ExecutionElement} {mi : MachineInstr} {j k : ℕ}
    (h : HoldsTags s l none)
    (honly : ∀ i, s.resStations[i]?.any (·.canExecuteInstruction s.funcUnits mi) = true → i = k)
    (ht : issueRound P ee mi s j = .ok t) :
    t = s ∨ j = k ∧ Issues s ee k t ∧ ∃ l', HoldsTags t l' none := by
  have hstation (i : ℕ) (haccepts : s.resStations[i]?.any (s.accepts mi) = true) : i = k := by
    apply honly
    rw [Option.any_eq_true] at haccepts ⊢
    obtain ⟨rS, hrS, haccepts⟩ := haccepts
    exact ⟨rS, hrS, (Bool.and_eq_true_iff.mp haccepts).1⟩
  unfold OutOfOrderPipelineState.issueRound at ht
  split at ht
  · next haccepts =>
    unfold issueToFirst at ht
    split at ht
    · next i hi =>
      obtain ⟨hlt, hi, _⟩ := List.findIdx?_eq_some_iff_getElem.mp hi
      have hik : i = k := hstation i (by rwa [List.getElem?_eq_getElem hlt, Option.any_some])
      subst hik
      obtain ⟨elem, _, ht', _⟩ := h.issueTo ht
      exact .inr ⟨hstation j haccepts, issues_of_issueTo ht, _, ht'⟩
    · cases ht
      exact .inl rfl
  · cases ht
    exact .inl rfl

/-- The two loops over the stations issue the instruction once. -/
theorem HoldsTags.issuesOnce {ee : ExecutionElement} {mi : MachineInstr} {k : ℕ} {js : List ℕ}
    (hk : ∀ i, initialStations[i]?.any (·.canExecuteInstruction initialUnits mi) = true → i = k)
    (hnodup : js.Nodup) (h : HoldsTags s l none)
    (ht : js.foldlM (OutOfOrderPipelineState.issueRound P ee mi) s = .ok t) :
    t = s ∨ k ∈ js ∧ Issues s ee k t := by
  induction js generalizing s l with
  | nil =>
    cases ht
    exact .inl rfl
  | cons j js ih =>
    obtain ⟨hj, hnodup⟩ := List.nodup_cons.mp hnodup
    rw [List.foldlM_cons] at ht
    obtain ⟨u, hu, hrest⟩ := bind_eq_ok.mp ht
    have honly : ∀ i,
        s.resStations[i]?.any (·.canExecuteInstruction s.funcUnits mi) = true → i = k := by
      intro i hi
      rw [h.any_canExecuteInstruction] at hi
      exact hk i hi
    rcases h.issueRound honly hu with rfl | ⟨rfl, hissues, l', hu'⟩
    · rcases ih hnodup h hrest with heq | ⟨hmem, hissues⟩
      · exact .inl heq
      · exact .inr ⟨List.mem_cons_of_mem j hmem, hissues⟩
    · rcases ih hnodup hu' hrest with rfl | ⟨hmem, _⟩
      · exact .inr ⟨List.mem_cons_self, hissues⟩
      · exact absurd hmem hj

theorem HoldsTags.issues (h : HoldsTags s l none) (haccepts : AcceptedOnce P)
    (ht : OutOfOrderPipelineState.tryIssueInstr P s = .ok t) : t = s ∨ ∃ ee k, Issues s ee k t := by
  unfold OutOfOrderPipelineState.tryIssueInstr at ht
  split at ht
  · cases ht
    exact .inl rfl
  · next ee _ _ =>
    obtain ⟨mi, hmi, ht⟩ := bind_eq_ok.mp ht
    split at ht
    · cases ht
      exact .inl rfl
    · obtain ⟨k, _, honly⟩ := haccepts ee.1 mi (Program.instrAt_eq_ok.mp hmi)
      rcases h.issuesOnce honly List.nodup_range ht with heq | ⟨_, hissues⟩
      · exact .inl heq
      · exact .inr ⟨ee, k, hissues⟩

/-- The tags are held when the next instruction is issued. -/
theorem HoldsTags.beforeIssue {dep : StateDep} (h : HoldsTags s l none)
    (hu : BeforeIssue P M dep s u) : ∃ l', HoldsTags u l' none := by
  obtain ⟨memory, v, funcUnits, resStations, reOrderBuffer, regStatTabl, tempFi, _, hv, hstations,
    hrob, rfl⟩ := hu
  have hstarted : HoldsTags (started s memory) l (started s memory).commonDataBus :=
    h.congr ⟨rfl, rfl, rfl⟩ rfl
  obtain ⟨hunits, _, _⟩ := hstarted.unitsCycle hv
  obtain ⟨rest, hrest, _, _⟩ := hunits.cycleBuffers hstations hrob
  exact ⟨rest, hrest⟩

end Issue

/-- The tags that are held are the executing ones. -/
theorem HoldsTags.checkTagValidity (h : HoldsTags s l none) : s.checkTagValidity = true := by
  have hmem (tag : RobTag) : tag ∈ s.heldTags ↔ tag ∈ s.reOrderBuffer.getExecutingRobTags := by
    have howned := h.owned tag
    rw [ReOrderBuffer.getExecutingRobTags, List.mem_filter, ← List.count_pos_iff]
    simp only [Option.toList_none, List.count_nil, Nat.add_zero] at howned
    rw [howned]
    cases s.reOrderBuffer.isExecuting tag <;> simp
  unfold OutOfOrderPipelineState.checkTagValidity
  simp [hmem]

variable (P M)

/-- The pipeline conserves instructions in a run with what happened in its cycles. -/
structure Conserves (logs : List CycleLog) (s : OutOfOrderPipelineState μ) : Prop where
  /-- the occupied slots are those from head to tail -/
  range : ∀ tag, (s.reOrderBuffer.rob.get tag).isSome = true ↔ s.reOrderBuffer.isFull = true ∨
    RingBuffer.offset s.reOrderBuffer.robHead tag <
      RingBuffer.offset s.reOrderBuffer.robHead s.reOrderBuffer.robTail
  full : s.reOrderBuffer.isFull = true → s.reOrderBuffer.robHead = s.reOrderBuffer.robTail
  /-- an executing tag is held once, and nothing else is held -/
  held : ∀ tag, s.heldTags.count tag = if s.reOrderBuffer.isExecuting tag then 1 else 0
  valid : s.checkTagValidity = true
  /-- what is issued gets one slot and one place in a station -/
  issued : ∀ dep u t, BeforeIssue P M dep s u → tryIssueInstr P u = .ok t →
    t = u ∨ ∃ ee k, Issues u ee k t
  /-- what was fetched is committed in order, in flight, or dropped by a flush -/
  committed : Fifo.Accounts (Flushes P) (logs.flatMap CycleLog.fetched)
    (logs.flatMap CycleLog.committed) s.inFlight

variable {P M}

theorem conserves_of_run (haccepts : AcceptedOnce P) {logs : List CycleLog}
    (h : Run P M (fun _ => True) logs s) : Conserves P M logs s := by
  have hI : PhaseInvariant P fun (_ : OutOfOrderPipelineState μ) _ => True :=
    ⟨fun _ _ => trivial, fun _ _ _ _ _ => trivial, fun _ _ _ _ _ => trivial, fun _ => trivial⟩
  obtain ⟨l, hl, _, _, haccounts⟩ := holdsTags_of_run hI h
  refine ⟨hl.holds.isSome_iff_offset, hl.holds.head_eq_tail, fun tag => ?_, hl.checkTagValidity, ?_,
    ?_⟩
  · have howned := hl.owned tag
    simpa [Bool.toNat, Bool.cond_eq_ite] using howned
  · intro dep u t hu ht
    obtain ⟨l', hl'⟩ := hl.beforeIssue hu
    exact hl'.issues haccepts ht
  · rwa [hl.inFlight_eq]

theorem acceptedOnce_straightLine (executionTime : ℕ) : AcceptedOnce (straightLine executionTime) := by
  intro addr mi hmi
  have hsimple : mi = simpleInstr := by
    simp only [straightLine] at hmi
    split_ifs at hmi
    exact (Option.some.inj hmi).symm
  subst hsimple
  refine ⟨0, rfl, fun k hk => ?_⟩
  match k with
  | 0 => rfl
  | 1 => exact nomatch hk
  | 2 => exact nomatch hk
  | k + 3 => exact nomatch hk

theorem conserves_straightLine : ∃ logs, Conserves (straightLine 6) oneCycleTopology logs
    (straightLineAfter 6 34) := by
  have hreachable : Reachable (straightLine 6) oneCycleTopology (fun _ => True)
      (straightLineAfter 6 34) := reachable_straightLineAfter (by decide +kernel)
  obtain ⟨logs, hlogs⟩ := hreachable
  exact ⟨logs, conserves_of_run (acceptedOnce_straightLine 6) hlogs⟩

end Llvmta.MicroArch.OutOfOrderPipelineState
