import Llvmta.MicroarchitecturalAnalysis.OutOfOrderScopeEntrances

/-!
# Scopes of the out-of-order pipeline

The pipeline enters the scopes of an edge when it fetches, leaves them when it commits, and
when it is flushed leaves those that it has entered speculatively. What it has entered is
that of the edges up to the instruction that is being fetched, and what flushes have undone.
-/

namespace Llvmta.MicroArch.OutOfOrderPipelineState

open Checked ReservationStation

variable (P : Program) {μ : Type} {M : MemoryTopology μ}

/-- What is in flight and what is being fetched. -/
def ahead (s : OutOfOrderPipelineState μ) : List ExecutionElement := s.inFlight ++ s.nextFetch

/-- Behind the program there is no instruction either. -/
def EndsOutside (s : OutOfOrderPipelineState μ) : Prop :=
  P.getMachineInstrByAddr s.pc.1 = none → ∀ pc, P.fetchNext s.pc = .ok pc →
    P.getMachineInstrByAddr pc.1 = none

/-- If a committed element was reached over an edge that enters nothing, then no equal element
behind it has entered scopes. -/
def Attributed (behind : List ExecutionElement) :
    Option ExecutionElement → List ExecutionElement → Prop
  | _, [] => True
  | prev, fi :: fis =>
    (scopesOf P P.getEnteringScopes (prev, fi) = [] →
      ∀ edge ∈ incoming (some fi) (fis ++ behind), ¬ EntersAt P fi edge) ∧
    Attributed behind (some fi) fis

/-- This holds of what was committed in the cycles of a run. -/
def AttributedLogs : Option ExecutionElement → List CycleLog → Prop
  | _, [] => True
  | prev, log :: logs => Attributed P log.behind prev log.committed ∧
    AttributedLogs (log.committed.getLast?.or prev) logs

instance decidableAttributed (behind : List ExecutionElement) :
    (prev : Option ExecutionElement) → (fis : List ExecutionElement) →
      Decidable (Attributed P behind prev fis)
  | _, [] => inferInstanceAs (Decidable True)
  | _, fi :: fis =>
    have := decidableAttributed behind (some fi) fis
    inferInstanceAs (Decidable ((_ → ∀ edge ∈ _, ¬ _) ∧ _))

instance decidableAttributedLogs : (prev : Option ExecutionElement) → (logs : List CycleLog) →
    Decidable (AttributedLogs P prev logs)
  | _, [] => inferInstanceAs (Decidable True)
  | prev, log :: logs =>
    have := decidableAttributedLogs (log.committed.getLast?.or prev) logs
    inferInstanceAs (Decidable (_ ∧ _))

/-- The scopes of what was fetched behind the instruction that flushed the pipeline. -/
def undoneBy (log : CycleLog) (scope : PersistenceScope) : ℕ :=
  if log.flushed then
    tally P P.getEnteringScopes (incoming log.committed.getLast? log.behind) scope
  else 0

def undoneInRun (logs : List CycleLog) (scope : PersistenceScope) : ℕ :=
  (logs.map fun log => undoneBy P log scope).sum

/-- The scopes are balanced in a run with what happened in its cycles. -/
structure ScopesBalanced (logs : List CycleLog) (s : OutOfOrderPipelineState (ScopeCounted μ)) :
    Prop where
  /-- each flush has left what was entered behind it -/
  entered : ∀ scope, s.memory.entered.count scope =
    tally P P.getEnteringScopes
      (incoming none (logs.flatMap CycleLog.committed ++ s.ahead)) scope + undoneInRun P logs scope
  left : ∀ scope, s.memory.left.count scope =
    tally P P.getLeavingScopes
      (incoming none (logs.flatMap CycleLog.committed ++ s.ahead.take 1)) scope +
        undoneInRun P logs scope
  net : ∀ scope, s.memory.net scope =
    (tally P P.getEnteringScopes
      (incoming none (logs.flatMap CycleLog.committed ++ s.ahead)) scope : ℤ) -
    tally P P.getLeavingScopes
      (incoming none (logs.flatMap CycleLog.committed ++ s.ahead.take 1)) scope

/-- In a cycle: the entrances are those of the edges, and scopes were entered for edges in
front of these, left behind committed elements, and undone by flushes. -/
structure Counted (opened closed undone : PersistenceScope → ℕ)
    (edges : List (Option ExecutionElement × ExecutionElement))
    (s : OutOfOrderPipelineState (ScopeCounted μ)) : Prop where
  tallied : Tallied P s.speculativeScopeEntrances edges
  entered : ∀ scope, s.memory.entered.count scope =
    opened scope + tally P P.getEnteringScopes edges scope + undone scope
  left : ∀ scope, s.memory.left.count scope = closed scope + undone scope

/-- The committed elements are not speculative any longer, and nothing was flushed. -/
structure KeptBehind (opened closed undone : PersistenceScope → ℕ) (prev : Option ExecutionElement)
    (fis behind : List ExecutionElement) (s t : OutOfOrderPipelineState (ScopeCounted μ)) :
    Prop where
  counted : Counted P (fun scope => opened scope + tally P P.getEnteringScopes (incoming prev fis)
    scope) closed undone (incoming (fis.getLast?.or prev) behind) t
  pc : t.pc = s.pc
  instructionQueue : t.instructionQueue = s.instructionQueue
  last : ∀ ee, fis.getLast? = some ee → ¬ EndsFetch P ee

/-- The last one of the committed elements has undone what was fetched behind it. -/
structure FlushedBehind (opened closed undone : PersistenceScope → ℕ)
    (prev : Option ExecutionElement) (fis behind : List ExecutionElement)
    (t : OutOfOrderPipelineState (ScopeCounted μ)) : Prop where
  counted : Counted P (fun scope => opened scope + tally P P.getEnteringScopes (incoming prev fis)
    scope) closed (fun scope => undone scope +
      tally P P.getEnteringScopes (incoming fis.getLast? behind) scope)
    (incoming fis.getLast? [t.pc]) t
  stallFetch : t.instructionQueue.stallFetch = false
  nonempty : fis ≠ []

/-- Fetching has stopped behind an element that ends the fetch, or behind the program. -/
def StalledBehind (elements : List ExecutionElement) (s : OutOfOrderPipelineState μ) : Prop :=
  s.instructionQueue.stallFetch = true →
    (∃ ee, elements.getLast? = some ee ∧ EndsFetch P ee) ∨ P.getMachineInstrByAddr s.pc.1 = none

/-- The list begins with what follows the committed elements, if there is such an instruction. -/
def Follows (s : OutOfOrderPipelineState μ) (next : List ExecutionElement) : Prop :=
  (∃ ee, next.head? = some ee ∧ ee.1 = s.followingAddr) ∨
    next = [] ∧ P.getMachineInstrByAddr s.followingAddr = none

/-- After the first elements were committed, while the pending ones are not in flight any
longer; between two cycles nothing is pending. -/
structure ScopeInvariant (committed pending : List ExecutionElement)
    (undone : PersistenceScope → ℕ) (s : OutOfOrderPipelineState (ScopeCounted μ)) : Prop where
  counted : Counted P (tally P P.getEnteringScopes (incoming none committed))
    (tally P P.getLeavingScopes (incoming none (committed ++ (pending ++ s.ahead).take 1))) undone
    (incoming committed.getLast? (pending ++ s.ahead)) s
  stalled : StalledBehind P (pending ++ s.inFlight) s

/-- The states do not differ in what concerns scopes. -/
structure SameScoping (s t : OutOfOrderPipelineState (ScopeCounted μ)) : Prop where
  memory : s.memory.SameScopes t.memory
  entrances : t.speculativeScopeEntrances = s.speculativeScopeEntrances
  pc : t.pc = s.pc
  stallFetch : t.instructionQueue.stallFetch = s.instructionQueue.stallFetch

variable {P} {s s' t : OutOfOrderPipelineState (ScopeCounted μ)}
  {opened closed undone : PersistenceScope → ℕ}
  {edge : Option ExecutionElement × ExecutionElement}
  {edges : List (Option ExecutionElement × ExecutionElement)}
  {prev : Option ExecutionElement} {front behind elements : List ExecutionElement}

section Frame

theorem SameScoping.refl (s : OutOfOrderPipelineState (ScopeCounted μ)) : SameScoping s s :=
  ⟨⟨rfl, rfl⟩, rfl, rfl, rfl⟩

theorem SameScoping.trans {u : OutOfOrderPipelineState (ScopeCounted μ)} (h : SameScoping s t)
    (h' : SameScoping t u) : SameScoping s u :=
  ⟨h.memory.trans h'.memory, h'.entrances.trans h.entrances, h'.pc.trans h.pc,
    h'.stallFetch.trans h.stallFetch⟩

theorem Counted.congr (h : Counted P opened closed undone edges s)
    (hmemory : s.memory.SameScopes t.memory)
    (hentrances : t.speculativeScopeEntrances = s.speculativeScopeEntrances) :
    Counted P opened closed undone edges t := by
  refine ⟨?_, fun scope => ?_, fun scope => ?_⟩
  · rw [hentrances]
    exact h.tallied
  · rw [hmemory.entered]
    exact h.entered scope
  · rw [hmemory.left]
    exact h.left scope

theorem Counted.congr_edges {edges' : List (Option ExecutionElement × ExecutionElement)}
    (h : Counted P opened closed undone edges s) (heq : edges' = edges) :
    Counted P opened closed undone edges' s := heq ▸ h

/-- An edge that enters nothing can be left out. -/
theorem Counted.of_append (hnil : scopesOf P P.getEnteringScopes edge = [])
    (h : Counted P opened closed undone (edges ++ [edge]) s) :
    Counted P opened closed undone edges s := by
  refine ⟨h.tallied.of_append hnil, fun scope => ?_, h.left⟩
  have hentered := h.entered scope
  rwa [tally_append, tally_cons, hnil] at hentered

theorem SameScoping.nextFetch (h : SameScoping s t) : t.nextFetch = s.nextFetch := by
  unfold OutOfOrderPipelineState.nextFetch
  rw [h.stallFetch, h.pc]

theorem SameScoping.stalledBehind (h : SameScoping s t) (hs : StalledBehind P elements s) :
    StalledBehind P elements t := by
  unfold StalledBehind
  rw [h.stallFetch, h.pc]
  exact hs

theorem sameScoping_of_unitsCycle {addrInfo : AddressInformation} {is : List ℕ}
    (h : UnitsCycle P M.counting addrInfo is s t) : SameScoping s t := by
  induction h with
  | nil => exact .refl _
  | @cons i is s t u hlead _ ih =>
    refine SameScoping.trans ?_ ih
    obtain ⟨fu, fu', memory, _, hcycle, rfl⟩ := cycleFuncUnit_cases hlead
    obtain ⟨fu'', bus, heq, _⟩ := broadcast_eq { s with memory } i fu'
    rw [heq]
    refine ⟨?_, rfl, rfl, rfl⟩
    apply hcycle.memory_invariant (I := fun m => s.memory.SameScopes m)
    · intro m _ _ hm
      exact hm.trans ⟨rfl, rfl⟩
    · intro m _ _ _ m' hm haccess
      exact hm.trans (sameScopes_of_accessData haccess)
    · exact ⟨rfl, rfl⟩

theorem sameScoping_of_tryIssueInstr (h : tryIssueInstr P s = .ok t) : SameScoping s t := by
  apply tryIssueInstr_invariant (I := fun u => SameScoping s u) _ (.refl s) h
  intro u u' ee mi k _ _ hu hissue
  obtain ⟨_, _, _, _, _, _, _, _, _, _, rfl⟩ := issueTo_eq_ok hissue
  exact hu.trans ⟨⟨rfl, rfl⟩, rfl, rfl, rfl⟩

theorem sameScopes_of_forwards {memory memory' : ScopeCounted μ}
    (h : Forwards M.counting memory memory') : memory.SameScopes memory' := by
  rcases h with rfl | h
  · exact ⟨rfl, rfl⟩
  · exact sameScopes_of_fastForward h

end Frame

section Fetch

/-- The edge to the program counter is entered. -/
theorem Counted.enterScopesFrom {source : ExecutionElement} (hneed : P.needPersistenceScopes = true)
    (h : Counted P opened closed undone edges s)
    (ht : enterScopesFrom P M.counting s source.1 = .ok t) :
    Counted P opened closed undone (edges ++ [(some source, s.pc)]) t ∧
      t.pc = s.pc ∧ t.instructionQueue = s.instructionQueue := by
  unfold OutOfOrderPipelineState.enterScopesFrom at ht
  dsimp only at ht
  split at ht
  · next hscopes =>
    obtain ⟨entrances, hentrances, ht⟩ := bind_eq_ok.mp ht
    cases ht
    obtain ⟨hentered, hleft⟩ := MemoryTopology.enterScopes_counting (M := M) s.memory
      (P.scopesBetween P.getEnteringScopes source.1 s.pc.1)
    refine ⟨⟨?_, fun scope => ?_, fun scope => ?_⟩, rfl, rfl⟩
    · have hentered : Tallied P entrances (edges ++ [(some source, s.pc)]) :=
        h.tallied.enter hscopes.2 hentrances
      exact hentered
    · have hold := h.entered scope
      dsimp only
      rw [hentered, List.count_append, hold, tally_append, tally_cons, tally_nil]
      simp only [scopesOf]
      omega
    · dsimp only
      rw [hleft]
      exact h.left scope
  · next hscopes =>
    cases ht
    have hnil : scopesOf P P.getEnteringScopes (some source, s.pc) = [] := by
      by_contra hne
      exact hscopes ⟨hneed, hne⟩
    refine ⟨⟨h.tallied.append_of_nil hnil, fun scope => ?_, h.left⟩, rfl, rfl⟩
    rw [tally_append, tally_cons, hnil]
    exact h.entered scope

theorem scopesBetween_of_none {scopes : MBBedge → List PersistenceScope} {source target : ℕ}
    (h : P.getMachineInstrByAddr target = none) : P.scopesBetween scopes source target = [] := by
  unfold Program.scopesBetween
  rw [h]
  cases P.getMachineInstrByAddr source <;> rfl

theorem scopesOf_of_none {scopes : MBBedge → List PersistenceScope} {ee : ExecutionElement}
    (h : P.getMachineInstrByAddr ee.1 = none) : scopesOf P scopes (prev, ee) = [] := by
  cases prev with
  | none => rfl
  | some source => exact scopesBetween_of_none h

/-- Filling the queue goes on with the edge to what is fetched next. -/
theorem Counted.fills {ins2ctx : InstrContextMapping} {fetched : List ExecutionElement}
    (hneed : P.needPersistenceScopes = true)
    (h : Counted P opened closed undone
      (incoming prev (front ++ s.instructionQueue.queue ++ s.nextFetch)) s)
    (ht : Fills P M.counting ins2ctx s t fetched) :
    Counted P opened closed undone
      (incoming prev (front ++ t.instructionQueue.queue ++ t.nextFetch)) t := by
  have hfetching (hfetch : s.instructionQueue.stallFetch = false) : s.nextFetch = [s.pc] := by
    unfold nextFetch
    rw [hfetch]
    rfl
  cases ht with
  | skips => exact h
  | waits hfetch hpoll => exact h.congr (sameScopes_of_finishedInstrAccess hpoll) rfl
  | @ends memory pc hfetch hpoll _ hmi =>
    rw [hfetching hfetch, incoming_append] at h
    have hnil : scopesOf P P.getEnteringScopes
      ((front ++ s.instructionQueue.queue).getLast?.or prev, s.pc) = [] := scopesOf_of_none hmi
    refine (h.of_append hnil).congr_edges ?_ |>.congr (sameScopes_of_finishedInstrAccess hpoll) rfl
    exact congrArg (incoming prev) (List.append_nil _)
  | stops _ hfetch hpoll _ _ hu =>
    rw [branchEarly_eq_ok hu]
    rw [hfetching hfetch] at h
    refine (h.congr_edges ?_).congr (sameScopes_of_finishedInstrAccess hpoll) rfl
    simp [nextFetch]
  | @continues memory pc mi message u v t _ hfetch hpoll _ _ hu _ hv ht =>
    rw [branchEarly_eq_ok hu] at hv
    rw [hfetching hfetch] at h
    have hsame := sameScopes_of_finishedInstrAccess hpoll
    obtain ⟨hcounted, hpc, hqueue⟩ := (h.congr (t := { s with
      toMicroArchitecturalState := u.toMicroArchitecturalState, memory
      instructionQueue := { s.instructionQueue with
        queue := s.instructionQueue.queue ++ [s.pc] } }) hsame rfl).enterScopesFrom hneed hv
    obtain ⟨id, memory', haccess, rfl⟩ := startAccess_eq_ok ht
    have hlast : (front ++ s.instructionQueue.queue ++ [s.pc]).getLast? = some s.pc :=
      List.getLast?_concat
    have hfetch : v.instructionQueue.stallFetch = false := by
      rw [hqueue]
      exact hfetch
    refine (hcounted.congr_edges ?_).congr (sameScopes_of_accessInstr haccess) rfl
    unfold nextFetch
    rw [hfetch, if_neg Bool.false_ne_true, hqueue, hpc, ← List.append_assoc, incoming_append, hlast]
    rfl

theorem instructionQueue_of_enterScopesFrom {source : ℕ}
    (h : enterScopesFrom P M.counting s source = .ok t) :
    t.instructionQueue = s.instructionQueue := by
  rcases enterScopesFrom_eq_ok h with rfl | ⟨_, _, _, _, _, _, rfl⟩ <;> rfl

/-- Fetching stops behind an element that ends the fetch, or behind the program. -/
theorem StalledBehind.fills {ins2ctx : InstrContextMapping} {fetched : List ExecutionElement}
    (houtside : EndsOutside P s)
    (h : StalledBehind P (front ++ s.instructionQueue.queue) s)
    (ht : Fills P M.counting ins2ctx s t fetched) :
    StalledBehind P (front ++ t.instructionQueue.queue) t := by
  cases ht with
  | skips => exact h
  | waits => exact h
  | ends _ _ hpc hmi => exact fun _ => .inr (houtside hmi _ hpc)
  | stops _ _ _ _ hmi hu hstops =>
    rw [branchEarly_eq_ok hu]
    refine fun _ => .inl ⟨s.pc, ?_, _, hmi, hstops⟩
    dsimp only
    rw [← List.append_assoc, List.getLast?_concat]
  | continues _ hfetch _ _ _ hu _ hv ht =>
    obtain ⟨id, memory, _, rfl⟩ := startAccess_eq_ok ht
    intro hstall
    rw [branchEarly_eq_ok hu] at hv
    dsimp only at hstall
    rw [instructionQueue_of_enterScopesFrom hv, hfetch] at hstall
    exact nomatch hstall

/-- What follows the elements stays the same, unless it is outside of the program. -/
theorem Fills.tally_take {ins2ctx : InstrContextMapping} {fetched : List ExecutionElement}
    (ht : Fills P M.counting ins2ctx s t fetched) (scopes : MBBedge → List PersistenceScope)
    (committed : List ExecutionElement) (scope : PersistenceScope) :
    tally P scopes (incoming none (committed ++
        (front ++ t.instructionQueue.queue ++ t.nextFetch).take 1)) scope =
      tally P scopes (incoming none (committed ++
        (front ++ s.instructionQueue.queue ++ s.nextFetch).take 1)) scope := by
  have hfetching (hfetch : s.instructionQueue.stallFetch = false) : s.nextFetch = [s.pc] := by
    unfold nextFetch
    rw [hfetch]
    rfl
  have hhead (next : List ExecutionElement) :
      (front ++ (s.instructionQueue.queue ++ [s.pc]) ++ next).take 1 =
        (front ++ s.instructionQueue.queue ++ [s.pc]).take 1 := by
    rw [← List.append_assoc front, List.take_append_of_le_length (by simp; omega)]
  cases ht with
  | skips => rfl
  | waits => rfl
  | @ends memory pc hfetch _ _ hmi =>
    rw [hfetching hfetch]
    unfold nextFetch
    dsimp only
    rw [if_pos rfl, List.append_nil]
    cases hpath : front ++ s.instructionQueue.queue with
    | nil =>
      have htake : [s.pc].take 1 = [s.pc] := rfl
      rw [List.take_nil, List.append_nil, List.nil_append, htake, incoming_append, tally_append,
        incoming, tally_cons, scopesOf_of_none hmi]
      rfl
    | cons ee elements => rfl
  | stops _ hfetch _ _ _ hu =>
    rw [branchEarly_eq_ok hu, hfetching hfetch]
    dsimp only
    rw [hhead]
  | continues _ hfetch _ _ _ hu _ hv ht =>
    obtain ⟨id, memory, _, rfl⟩ := startAccess_eq_ok ht
    rw [branchEarly_eq_ok hu] at hv
    rw [instructionQueue_of_enterScopesFrom hv, hfetching hfetch]
    dsimp only
    rw [hhead]

end Fetch

section Commit

/-- The first edge is not speculative any longer. -/
theorem Counted.commits {fi : ExecutionElement} (hneed : P.needPersistenceScopes = true)
    (h : Counted P opened closed undone ((prev, fi) :: edges) s)
    (hattributed : scopesOf P P.getEnteringScopes (prev, fi) = [] →
      ∀ edge ∈ edges, ¬ EntersAt P fi edge) :
    Counted P (fun scope => opened scope + tally P P.getEnteringScopes [(prev, fi)] scope)
      closed undone edges (commits P s fi) := by
  unfold OutOfOrderPipelineState.commits
  rw [if_pos hneed]
  refine ⟨h.tallied.commit hattributed, fun scope => ?_, h.left⟩
  have hentered := h.entered scope
  rw [tally_cons] at hentered
  rw [tally_cons, tally_nil]
  dsimp only
  omega

theorem leaveEntrances_counting (memory : ScopeCounted μ) (entrances : List ScopeEntrance) :
    (leaveEntrances M.counting memory entrances).entered = memory.entered ∧
      ∀ scope, (leaveEntrances M.counting memory entrances).left.count scope =
        memory.left.count scope + totalEntrances entrances scope := by
  have hrepeat (scopes : List PersistenceScope) (n : ℕ) (memory : ScopeCounted μ) :
      ((List.replicate n scopes).foldl M.counting.leaveScopes memory).entered = memory.entered ∧
        ∀ scope, ((List.replicate n scopes).foldl M.counting.leaveScopes memory).left.count scope =
          memory.left.count scope + n * scopes.count scope := by
    induction n generalizing memory with
    | zero => simp
    | succ n ih =>
      rw [List.replicate_succ, List.foldl_cons]
      obtain ⟨hentered, hleft⟩ := MemoryTopology.leaveScopes_counting (M := M) memory scopes
      obtain ⟨hentered', hleft'⟩ := ih (M.counting.leaveScopes memory scopes)
      refine ⟨hentered'.trans hentered, fun scope => ?_⟩
      rw [hleft', hleft, List.count_append]
      ring
  unfold leaveEntrances
  induction entrances generalizing memory with
  | nil => exact ⟨rfl, fun scope => rfl⟩
  | cons entrance entrances ih =>
    rw [List.foldl_cons]
    obtain ⟨hentered, hleft⟩ := hrepeat entrance.scopes entrance.count memory
    obtain ⟨hentered', hleft'⟩ := ih _
    refine ⟨hentered'.trans hentered, fun scope => ?_⟩
    have htotal : totalEntrances (entrance :: entrances) scope =
        entrance.count * entrance.scopes.count scope + totalEntrances entrances scope := rfl
    rw [hleft', hleft, htotal]
    ring

/-- A flush undoes what the edges have entered, and goes on with the one to the program
counter. -/
theorem Counted.emptyPipeline {fi : ExecutionElement} (hneed : P.needPersistenceScopes = true)
    (h : Counted P opened closed undone edges s)
    (ht : emptyPipeline P M.counting s fi.1 = .ok t) :
    Counted P opened closed (fun scope => undone scope + tally P P.getEnteringScopes edges scope)
      [(some fi, t.pc)] t ∧ t.instructionQueue.stallFetch = false := by
  obtain ⟨left, v, reOrderBuffer, hleft, hv, hflush, rfl⟩ := emptyPipeline_eq_ok ht
  obtain ⟨w, id, memory, hw, haccess, rfl⟩ := flushQueue_eq_ok hv
  rw [if_pos hneed] at hleft
  subst hleft
  obtain ⟨hentered, hleft⟩ :=
    leaveEntrances_counting (M := M) s.memory s.speculativeScopeEntrances
  have hundone : Counted P opened closed
      (fun scope => undone scope + tally P P.getEnteringScopes edges scope) []
      { s with
        memory := leaveEntrances M.counting s.memory s.speculativeScopeEntrances
        speculativeScopeEntrances := []
        instructionQueue := { s.instructionQueue with queue := [] } } := by
    refine ⟨tallied_nil, fun scope => ?_, fun scope => ?_⟩
    · have hold := h.entered scope
      dsimp only
      rw [hentered, tally_nil]
      omega
    · have hold := h.left scope
      dsimp only
      rw [hleft, h.tallied.total]
      omega
  obtain ⟨hcounted, hpc, _⟩ := hundone.enterScopesFrom hneed hw
  have hpc : w.pc = s.pc := hpc
  refine ⟨(hcounted.congr_edges ?_).congr (sameScopes_of_accessInstr haccess) rfl, rfl⟩
  dsimp only
  rw [hpc]
  rfl

/-- Without the branch taken fetching goes on as before. -/
theorem IsAlternative.pc_eq {ins2ctx : InstrContextMapping} {ee : ExecutionElement}
    {mi : MachineInstr} {m : MicroArchitecturalState}
    (hmi : P.getMachineInstrByAddr ee.1 = some mi)
    (hreturn : (mi.isReturn || mi.isJumpTableBranch) = false)
    (h : IsAlternative P ins2ctx s ee m) : m.pc = s.pc := by
  obtain ⟨m₀, alternatives, h, hm⟩ := h
  exact MicroArchitecturalState.pc_of_handleBranching hmi hreturn h hm

theorem tally_incoming_cons (scopes : MBBedge → List PersistenceScope) (fi : ExecutionElement)
    (fis : List ExecutionElement) (scope : PersistenceScope) :
    tally P scopes (incoming prev (fi :: fis)) scope =
      tally P scopes [(prev, fi)] scope + tally P scopes (incoming (some fi) fis) scope :=
  tally_append scope [(prev, fi)] (incoming (some fi) fis)

/-- The committed elements are not speculative any longer, and the last one may undo what was
fetched behind it. -/
theorem Counted.handles {ins2ctx : InstrContextMapping} {fis : List ExecutionElement}
    {flushed : Bool} (hneed : P.needPersistenceScopes = true)
    (h : Counted P opened closed undone (incoming prev (fis ++ behind)) s)
    (hattributed : Attributed P behind prev fis)
    (hplain : ∀ ee ∈ fis.dropLast, ¬ Flushes P ee)
    (ht : Handles P M.counting ins2ctx fis s t flushed) :
    flushed = false ∧ KeptBehind P opened closed undone prev fis behind s t ∨
      flushed = true ∧ FlushedBehind P opened closed undone prev fis behind t := by
  have hcommit {fi : ExecutionElement} {fis : List ExecutionElement} {prev : Option ExecutionElement}
      {opened : PersistenceScope → ℕ} {s : OutOfOrderPipelineState (ScopeCounted μ)}
      (h : Counted P opened closed undone (incoming prev (fi :: fis ++ behind)) s)
      (hattributed : Attributed P behind prev (fi :: fis)) :
      Counted P (fun scope => opened scope + tally P P.getEnteringScopes [(prev, fi)] scope) closed
        undone (incoming (some fi) (fis ++ behind)) (OutOfOrderPipelineState.commits P s fi) :=
    Counted.commits hneed h hattributed.1
  have hflush {fi : ExecutionElement} {m : MicroArchitecturalState}
      {s t : OutOfOrderPipelineState (ScopeCounted μ)} {prev : Option ExecutionElement}
      {opened : PersistenceScope → ℕ}
      (h : Counted P opened closed undone (incoming prev ([fi] ++ behind)) s)
      (hattributed : Attributed P behind prev [fi])
      (ht : OutOfOrderPipelineState.emptyPipeline P M.counting
        { OutOfOrderPipelineState.commits P s fi with toMicroArchitecturalState := m } fi.1 =
          .ok t) : FlushedBehind P opened closed undone prev [fi] behind t := by
    have hbranched := (hcommit h hattributed).congr (t := {
      OutOfOrderPipelineState.commits P s fi with toMicroArchitecturalState := m }) ⟨rfl, rfl⟩ rfl
    obtain ⟨hcounted, hstall⟩ := hbranched.emptyPipeline hneed ht
    exact ⟨hcounted, hstall, List.cons_ne_nil fi []⟩
  have hends {fi : ExecutionElement} {mi : MachineInstr}
      (hmi : P.getMachineInstrByAddr fi.1 = some mi)
      (hplain : changesControlFlow mi = false) : ¬ EndsFetch P fi := by
    rintro ⟨mi', hmi', hends⟩
    cases hmi.symm.trans hmi'
    revert hplain hends
    unfold changesControlFlow
    cases mi.isReturn <;> cases mi.isJumpTableBranch <;> simp
  induction ht generalizing opened prev with
  | nil => exact .inl ⟨rfl, h, rfl, rfl, fun ee hee => nomatch hee⟩
  | @plain fi fis mi s w flushed hmi hcontrol _ ih =>
    have hrest : ∀ ee ∈ fis.dropLast, ¬ Flushes P ee := by
      intro ee hee
      cases fis with
      | nil => exact nomatch hee
      | cons fi' fis => exact hplain ee (List.mem_cons_of_mem _ hee)
    have hopened : (fun scope => opened scope + tally P P.getEnteringScopes [(prev, fi)] scope +
        tally P P.getEnteringScopes (incoming (some fi) fis) scope) =
        fun scope => opened scope + tally P P.getEnteringScopes (incoming prev (fi :: fis)) scope := by
      funext scope
      rw [tally_incoming_cons, Nat.add_assoc]
    obtain ⟨entrances, heq⟩ := commits_eq (P := P) s fi
    rcases ih (hcommit h hattributed) hattributed.2 hrest with ⟨rfl, hkept⟩ | ⟨rfl, hflushed⟩
    · refine .inl ⟨rfl, ?_, ?_, ?_, ?_⟩
      · have hlast : (fi :: fis).getLast?.or prev = fis.getLast?.or (some fi) := by
          rw [List.getLast?_cons]
          cases fis.getLast? <;> rfl
        rw [hlast, ← hopened]
        exact hkept.counted
      · rw [hkept.pc, heq]
      · rw [hkept.instructionQueue, heq]
      · intro ee hee
        cases fis with
        | nil =>
          cases hee
          exact hends hmi hcontrol
        | cons fi' fis => exact hkept.last ee hee
    · refine .inr ⟨rfl, ?_, hflushed.stallFetch, List.cons_ne_nil fi fis⟩
      obtain ⟨fi', fis, rfl⟩ := List.exists_cons_of_ne_nil hflushed.nonempty
      rw [← hopened]
      exact hflushed.counted
  | @branch fi fis mi s t w m flushed hmi hcontrol _ ht hw _ =>
    cases fis with
    | nil =>
      cases hw
      exact .inr ⟨rfl, hflush h hattributed ht⟩
    | cons fi' fis => exact absurd ⟨mi, hmi, hcontrol⟩ (hplain fi List.mem_cons_self)
  | @flushedAlternative fi fis mi s w m hmi hcontrol _ hw =>
    cases fis with
    | nil => exact .inr ⟨rfl, hflush h hattributed hw⟩
    | cons fi' fis => exact absurd ⟨mi, hmi, hcontrol⟩ (hplain fi List.mem_cons_self)
  | @alternative fi fis mi s m hmi hcontrol hm hreturn =>
    cases fis with
    | nil =>
      obtain ⟨entrances, heq⟩ := commits_eq (P := P) s fi
      refine .inl ⟨rfl, (hcommit h hattributed).congr ⟨rfl, rfl⟩ rfl, ?_, ?_, ?_⟩
      · exact (hm.pc_eq hmi hreturn).trans (by rw [heq])
      · rw [heq]
      · intro ee hee
        cases hee
        rintro ⟨mi', hmi', hends⟩
        cases hmi.symm.trans hmi'
        rw [hreturn] at hends
        exact nomatch hends
    | cons fi' fis => exact absurd ⟨mi, hmi, hcontrol⟩ (hplain fi List.mem_cons_self)

end Commit

section Close

/-- The elements are followed by the one in front of those in flight. -/
theorem HoldsTags.followingAddr_eq {l : List ReOrderBufferElement} {bus : Option RobTag}
    (h : HoldsTags s l bus) : s.followingAddr = ((flight s l).head?.getD s.pc).1 := by
  have hhead : s.reOrderBuffer.getHeadElement = l.head?.map ReOrderBufferElement.executionElement :=
    congrArg (Option.map ReOrderBufferElement.executionElement) (RingBuffer.Holds.get_head h.holds)
  unfold followingAddr flight
  rw [hhead]
  cases l with
  | nil => cases s.instructionQueue.queue <;> rfl
  | cons elem l => rfl

theorem HoldsTags.follows {l : List ReOrderBufferElement} {bus : Option RobTag}
    (h : HoldsTags s l bus)
    (hstalled : flight s l = [] → s.instructionQueue.stallFetch = true →
      P.getMachineInstrByAddr s.pc.1 = none) : Follows P s (flight s l ++ s.nextFetch) := by
  unfold Follows
  rw [h.followingAddr_eq]
  cases hflight : flight s l with
  | nil =>
    unfold nextFetch
    cases hstall : s.instructionQueue.stallFetch with
    | true => exact .inr ⟨rfl, hstalled hflight hstall⟩
    | false => exact .inl ⟨s.pc, rfl, rfl⟩
  | cons ee elements => exact .inl ⟨ee, rfl, rfl⟩

theorem closeScopes_counting {next : List ExecutionElement} (hfollows : Follows P s next)
    (fi : ExecutionElement) (fis : List ExecutionElement) :
    (closeScopes P M.counting s (fi :: fis)).memory.entered = s.memory.entered ∧
      ∀ scope, (closeScopes P M.counting s (fi :: fis)).memory.left.count scope =
        s.memory.left.count scope +
          tally P P.getLeavingScopes (incoming (some fi) (fis ++ next.take 1)) scope := by
  have hleave (s : OutOfOrderPipelineState (ScopeCounted μ)) (source target : ℕ) :
      (leavePersistenceScope P M.counting s source target).memory.entered = s.memory.entered ∧
        (leavePersistenceScope P M.counting s source target).memory.left =
          s.memory.left ++ P.scopesBetween P.getLeavingScopes source target :=
    MemoryTopology.leaveScopes_counting (M := M) s.memory _
  induction fis generalizing s fi with
  | nil =>
    obtain ⟨hentered, hleft⟩ := hleave s fi.1 s.followingAddr
    refine ⟨hentered, fun scope => ?_⟩
    unfold closeScopes
    rw [hleft, List.count_append, List.nil_append]
    congr 1
    rcases hfollows with ⟨ee, hhead, haddr⟩ | ⟨rfl, hnone⟩
    · obtain ⟨rest, rfl⟩ := List.head?_eq_some_iff.mp hhead
      rw [← haddr]
      rfl
    · rw [scopesBetween_of_none hnone]
      rfl
  | cons fi' fis ih =>
    obtain ⟨hentered, hleft⟩ := hleave s fi.1 fi'.1
    obtain ⟨hentered', hleft'⟩ := ih (s := leavePersistenceScope P M.counting s fi.1 fi'.1)
      hfollows fi'
    refine ⟨hentered'.trans hentered, fun scope => (hleft' scope).trans ?_⟩
    rw [hleft, List.count_append, Nat.add_assoc]
    rfl

end Close

section Cycle

variable {l : List ReOrderBufferElement} {committed : List ExecutionElement}

theorem HoldsTags.ahead_eq {bus : Option RobTag} (h : HoldsTags s l bus) :
    s.ahead = flight s l ++ s.nextFetch := by
  unfold ahead
  rw [h.inFlight_eq]

/-- Up to the effects of what is committed, scopes are entered for what is fetched only. -/
theorem ScopeInvariant.components {ins2ctx : InstrContextMapping}
    {fetched tempFi : List ExecutionElement} (hneed : P.needPersistenceScopes = true)
    (hl : HoldsTags s l s.commonDataBus)
    (hfetch : FetchesUntil P s.instructionQueue.stallFetch (flight s l))
    (houtside : EndsOutside P s) (h : ScopeInvariant P committed [] undone s)
    (ht : cycleComponents P M.counting ins2ctx s = .ok (t, fetched, tempFi)) :
    ScopeInvariant P committed tempFi undone t ∧ (∃ l', HoldsTags t l' none) ∧
      ∀ ee ∈ tempFi.dropLast, ¬ Flushes P ee := by
  have hI : PhaseInvariant P fun (_ : OutOfOrderPipelineState (ScopeCounted μ)) _ => True :=
    ⟨fun _ _ => trivial, fun _ _ _ _ _ => trivial, fun _ _ _ _ _ => trivial, fun _ => trivial⟩
  obtain ⟨funcUnits, resStations, reOrderBuffer, regStatTabl, x, l', hissue, hfills, hx, ht', _,
    hsplit, _, _, hplain⟩ := hl.components hI trivial hfetch ht
  have hsame : SameScoping s x := by
    have hbuffers : SameScoping s { s with
        funcUnits, resStations, reOrderBuffer, regStatTabl
        finalInstructions := s.finalInstructions ++ tempFi } := ⟨⟨rfl, rfl⟩, rfl, rfl, rfl⟩
    exact hbuffers.trans (sameScoping_of_tryIssueInstr hissue)
  let front := tempFi ++ l'.map ReOrderBufferElement.executionElement
  have hflight : s.inFlight = front ++ x.instructionQueue.queue := by
    rw [hl.inFlight_eq, hsplit]
    exact (List.append_assoc _ _ _).symm
  have hahead : [] ++ s.ahead = front ++ x.instructionQueue.queue ++ x.nextFetch := by
    rw [hsame.nextFetch, ← hflight]
    rfl
  have hflight' : tempFi ++ t.inFlight = front ++ t.instructionQueue.queue := by
    rw [ht'.inFlight_eq]
    exact (List.append_assoc _ _ _).symm
  have hahead' : tempFi ++ t.ahead = front ++ t.instructionQueue.queue ++ t.nextFetch := by
    rw [← hflight', List.append_assoc]
    rfl
  have houtside : EndsOutside P x := by
    unfold EndsOutside
    rw [hsame.pc]
    exact houtside
  obtain ⟨hcounted, hstalled⟩ := h
  rw [hahead] at hcounted
  rw [List.nil_append, hflight] at hstalled
  have hfilled := (hcounted.congr hsame.memory hsame.entrances).fills hneed hfills
  refine ⟨⟨⟨?_, ?_, fun scope => ?_⟩, ?_⟩, ⟨l', ht'⟩, hplain⟩
  · rw [hahead']
    exact hfilled.tallied
  · rw [hahead']
    exact hfilled.entered
  · rw [hahead', hfills.tally_take]
    exact hfilled.left scope
  · rw [hflight']
    exact (hsame.stalledBehind hstalled).fills houtside hfills

/-- The effects of the committed elements, up to the scopes that are left behind them. -/
theorem ScopeInvariant.handles {ins2ctx : InstrContextMapping} {fis : List ExecutionElement}
    {flushed : Bool} (hneed : P.needPersistenceScopes = true) (hl : HoldsTags s l none)
    (h : ScopeInvariant P committed fis undone s)
    (hattributed : Attributed P s.ahead committed.getLast? fis)
    (hplain : ∀ ee ∈ fis.dropLast, ¬ Flushes P ee)
    (ht : Handles P M.counting ins2ctx fis s t flushed) :
    Counted P (tally P P.getEnteringScopes (incoming none (committed ++ fis)))
        (tally P P.getLeavingScopes (incoming none (committed ++ (fis ++ t.ahead).take 1)))
        (fun scope => undone scope + if flushed then
          tally P P.getEnteringScopes (incoming fis.getLast? s.ahead) scope else 0)
        (incoming (committed ++ fis).getLast? t.ahead) t ∧
      StalledBehind P t.inFlight t ∧ ∃ l', HoldsTags t l' none := by
  have hopened : (fun scope => tally P P.getEnteringScopes (incoming none committed) scope +
      tally P P.getEnteringScopes (incoming committed.getLast? fis) scope) =
      tally P P.getEnteringScopes (incoming none (committed ++ fis)) := by
    funext scope
    rw [incoming_append, tally_append, Option.or_none]
  rw [List.getLast?_append]
  rcases h.counted.handles hneed hattributed hplain ht with ⟨rfl, hkept⟩ | ⟨rfl, hflushed⟩
  · obtain ⟨_, hsame, hunits, hqueue⟩ | ⟨hflag, _⟩ := handles_cases hl hplain ht
    · have hinFlight : t.inFlight = s.inFlight := by
        unfold inFlight
        rw [hsame.reOrderBuffer, hqueue]
      have hahead : t.ahead = s.ahead := by
        unfold ahead nextFetch
        rw [hinFlight, hqueue, hkept.pc]
      have hcounted := hkept.counted
      rw [hopened] at hcounted
      rw [hahead, hinFlight]
      refine ⟨hcounted, ?_, l, hl.congr hsame hunits⟩
      intro hstall
      rw [hqueue] at hstall
      rw [hkept.pc]
      rcases h.stalled hstall with ⟨ee, hlast, hends⟩ | hnone
      · left
        rw [List.getLast?_append] at hlast
        cases hflight : s.inFlight.getLast? with
        | none =>
          rw [hflight, Option.none_or] at hlast
          exact absurd hends (hkept.last ee hlast)
        | some ee' =>
          rw [hflight, Option.some_or] at hlast
          exact ⟨ee, hlast, hends⟩
      · exact .inr hnone
    · exact nomatch hflag
  · obtain ⟨hflag, _⟩ | ⟨_, hempty, _⟩ := handles_cases hl hplain ht
    · exact nomatch hflag
    · have hinFlight : t.inFlight = [] := by
        rw [hempty.holdsTags.inFlight_eq]
        exact hempty.queue
      have hahead : t.ahead = [t.pc] := by
        unfold ahead nextFetch
        rw [hinFlight, hflushed.stallFetch]
        rfl
      have hcounted := hflushed.counted
      rw [hopened] at hcounted
      rw [hahead]
      refine ⟨?_, ?_, [], hempty.holdsTags⟩
      · obtain ⟨fi, fis, rfl⟩ := List.exists_cons_of_ne_nil hflushed.nonempty
        rw [List.getLast?_cons] at hcounted ⊢
        exact hcounted
      · intro hstall
        rw [hflushed.stallFetch] at hstall
        exact nomatch hstall

/-- The scopes of the edges behind the committed elements are left. -/
theorem Counted.closes {fis : List ExecutionElement} (hneed : P.needPersistenceScopes = true)
    (hl : HoldsTags s l none) (hstalled : StalledBehind P s.inFlight s)
    (h : Counted P opened
      (tally P P.getLeavingScopes (incoming none (committed ++ (fis ++ s.ahead).take 1))) undone
      edges s) :
    Counted P opened
      (tally P P.getLeavingScopes (incoming none (committed ++ fis ++ s.ahead.take 1))) undone
      edges (closes P M.counting s fis) := by
  unfold OutOfOrderPipelineState.closes
  rw [if_pos hneed]
  cases fis with
  | nil =>
    rw [List.append_nil]
    exact h
  | cons fi fis =>
    have hfollows : Follows P s s.ahead := by
      rw [hl.ahead_eq]
      apply hl.follows
      intro hnil hstall
      rcases hstalled hstall with ⟨ee, hlast, _⟩ | hnone
      · rw [hl.inFlight_eq, hnil] at hlast
        exact nomatch hlast
      · exact hnone
    obtain ⟨hentered, hleft⟩ := closeScopes_counting (M := M) hfollows fi fis
    obtain ⟨memory, hmemory⟩ := closes_eq (P := P) (M := M.counting) s (fi :: fis)
    unfold OutOfOrderPipelineState.closes at hmemory
    rw [if_pos hneed] at hmemory
    refine ⟨?_, fun scope => ?_, fun scope => ?_⟩
    · rw [hmemory]
      exact h.tallied
    · rw [hentered]
      exact h.entered scope
    · have hold := h.left scope
      have hone : (fi :: fis ++ s.ahead).take 1 = [fi] := rfl
      have hpath : committed ++ fi :: fis ++ s.ahead.take 1 =
          committed ++ [fi] ++ (fis ++ s.ahead.take 1) := by simp
      rw [hone] at hold
      rw [hleft, hold, hpath, incoming_append none (committed ++ [fi]), List.getLast?_concat,
        Option.some_or, tally_append]
      omega

/-- A cycle accounts for the edges of what is committed, and for what a flush has undone. -/
theorem ScopeInvariant.cycles {dep : StateDep} {log : CycleLog}
    (hneed : P.needPersistenceScopes = true) (hl : HoldsTags s l none)
    (hfetch : FetchesUntil P s.instructionQueue.stallFetch (flight s l))
    (houtside : EndsOutside P s) (h : ScopeInvariant P committed [] undone s)
    (hattributed : Attributed P log.behind committed.getLast? log.committed)
    (ht : Cycles P M.counting dep s t log) :
    ScopeInvariant P (committed ++ log.committed) []
      (fun scope => undone scope + undoneBy P log scope) t := by
  cases ht with
  | @stalls memory memory' hmemory _ hforward =>
    rw [List.append_nil]
    refine ⟨h.counted.congr ?_ rfl, h.stalled⟩
    exact (sameScopes_of_cycle hmemory).trans (sameScopes_of_forwards hforward)
  | @runs memory memory' u v w fetched tempFi flushed hmemory _ hu hv hw hforward =>
    have hstarted : HoldsTags (started s memory) l (started s memory).commonDataBus :=
      hl.congr ⟨rfl, rfl, rfl⟩ rfl
    obtain ⟨hunits, hbuffers, hqueue⟩ := hstarted.unitsCycle hu
    have hqueue : u.instructionQueue = s.instructionQueue := hqueue
    have hstart : SameScoping s (started s memory) :=
      ⟨sameScopes_of_cycle hmemory, rfl, rfl, rfl⟩
    have hsame := hstart.trans (sameScoping_of_unitsCycle hu)
    have hflight : flight u l = flight s l := by
      unfold flight
      rw [hqueue]
    have hinFlight : u.inFlight = s.inFlight := by
      rw [hunits.inFlight_eq, hflight, hl.inFlight_eq]
    have hahead : u.ahead = s.ahead := by
      unfold ahead
      rw [hinFlight, hsame.nextFetch]
    have hu : ScopeInvariant P committed [] undone u := by
      refine ⟨?_, ?_⟩
      · rw [hahead]
        exact h.counted.congr hsame.memory hsame.entrances
      · rw [hinFlight]
        exact hsame.stalledBehind h.stalled
    rw [← hflight, ← hqueue] at hfetch
    have houtside : EndsOutside P u := by
      unfold EndsOutside
      rw [hsame.pc]
      exact houtside
    obtain ⟨hpending, ⟨l', hv'⟩, hplain⟩ := hu.components hneed hunits hfetch houtside hv
    obtain ⟨hcounted, hstalled, l'', hw'⟩ := hpending.handles hneed hv' hattributed hplain hw
    have hforwarded : HoldsTags { w with memory := memory' } l'' none :=
      hw'.congr ⟨rfl, rfl, rfl⟩ rfl
    have hclosed := (hcounted.congr (t := { w with memory := memory' })
      (sameScopes_of_forwards hforward) rfl).closes (M := M) hneed hforwarded hstalled
    obtain ⟨memory'', hmemory⟩ := closes_eq (P := P) (M := M.counting)
      { w with memory := memory' } tempFi
    rw [hmemory] at hclosed ⊢
    exact ⟨hclosed, hstalled⟩

variable (P) in
theorem attributedLogs_append {log : CycleLog} {logs : List CycleLog}
    (h : AttributedLogs P prev (logs ++ [log])) : AttributedLogs P prev logs ∧
      Attributed P log.behind ((logs.flatMap CycleLog.committed).getLast?.or prev) log.committed := by
  induction logs generalizing prev with
  | nil => exact ⟨trivial, h.1⟩
  | cons log' logs ih =>
    obtain ⟨hattributed, hlast⟩ := ih h.2
    refine ⟨⟨h.1, hattributed⟩, ?_⟩
    rw [List.flatMap_cons, List.getLast?_append, Option.or_assoc]
    exact hlast

theorem undoneInRun_append (logs : List CycleLog) (log : CycleLog) :
    undoneInRun P (logs ++ [log]) =
      fun scope => undoneInRun P logs scope + undoneBy P log scope := by
  funext scope
  simp [undoneInRun]

end Cycle

/-- In a run whose cycles start in states behind which the program ends, what flushes have left
is what was entered behind them, as long as each commit is attributed to its own edge. -/
theorem scopesBalanced_of_run (hneed : P.needPersistenceScopes = true) {logs : List CycleLog}
    (h : Run P M.counting (EndsOutside P) logs s) (hattributed : AttributedLogs P none logs) :
    ScopesBalanced P logs s := by
  have hinvariant : ScopeInvariant P (logs.flatMap CycleLog.committed) [] (undoneInRun P logs) s := by
    have hI : PhaseInvariant P fun (_ : OutOfOrderPipelineState (ScopeCounted μ)) _ => True :=
      ⟨fun _ _ => trivial, fun _ _ _ _ _ => trivial, fun _ _ _ _ _ => trivial, fun _ => trivial⟩
    induction h with
    | new hs =>
      have hinFlight := (holdsTags_new hs).inFlight_eq
      obtain ⟨id, memory, haccess, rfl⟩ := startAccess_eq_ok hs
      obtain ⟨hentered, hleft⟩ := sameScopes_of_accessInstr haccess
      refine ⟨⟨?_, fun scope => ?_, fun scope => ?_⟩, fun hstall => nomatch hstall⟩
      · rw [ahead, hinFlight]
        exact (tallied_nil (P := P)).append_of_nil rfl
      · rw [ahead, hinFlight]
        exact congrArg (List.count scope) hentered
      · rw [ahead, hinFlight]
        exact congrArg (List.count scope) hleft
    | @cycle logs dep s s' log hrun houtside hs' ih =>
      obtain ⟨hlogs, hlog⟩ := attributedLogs_append P hattributed
      obtain ⟨l, hl, _, hfetch, _⟩ := holdsTags_of_run hI hrun
      obtain ⟨results, hresults, hmem⟩ := hs'
      rw [Option.or_none] at hlog
      have hcycled := (ih hlogs).cycles hneed hl hfetch houtside hlog
        (cycles_of_observedCycle hresults hmem)
      rw [List.flatMap_append, List.flatMap_singleton, undoneInRun_append]
      exact hcycled
    | isFinal _ ee ih =>
      unfold isFinal
      split_ifs
      · exact ih hattributed
      · exact ⟨(ih hattributed).counted.congr ⟨rfl, rfl⟩ rfl, (ih hattributed).stalled⟩
    | resetLocalMetrics _ ih =>
      exact ⟨(ih hattributed).counted.congr ⟨rfl, rfl⟩ rfl, (ih hattributed).stalled⟩
    | useBranchAssumption _ ih =>
      exact ⟨(ih hattributed).counted.congr ⟨rfl, rfl⟩ rfl, (ih hattributed).stalled⟩
    | useReturnAssumption _ ih =>
      exact ⟨(ih hattributed).counted.congr ⟨rfl, rfl⟩ rfl, (ih hattributed).stalled⟩
  have hentered (scope : PersistenceScope) : s.memory.entered.count scope =
      tally P P.getEnteringScopes
        (incoming none (logs.flatMap CycleLog.committed ++ s.ahead)) scope +
          undoneInRun P logs scope := by
    rw [hinvariant.counted.entered, List.nil_append, incoming_append none, tally_append,
      Option.or_none]
  refine ⟨hentered, hinvariant.counted.left, fun scope => ?_⟩
  have hleft := hinvariant.counted.left scope
  unfold ScopeCounted.net
  rw [hentered, hleft, List.nil_append]
  push_cast
  ring

section Nest

def branchInstr (block target : MachineBasicBlock) (conditional : Bool) : MachineInstr :=
  { simpleInstr with
    isBranch := true, isBarrier := !conditional, getParent := block, targetMBBs := [target] }

/-- The address of a block of `nest`. -/
def nestAddr (block : MachineBasicBlock) : ℕ :=
  match block with
  | 0 => 0
  | 1 => 4
  | 2 => 8
  | 3 => 16
  | _ => 20

/-- A loop of block 2 alone in a loop of the blocks 1, 2 and 3, each of which is a scope, where
loops do not partition contexts. -/
def nest : Program where
  getMachineInstrByAddr addr :=
    match addr with
    | 0 => some simpleInstr
    | 4 => some (branchInstr 1 4 true)
    | 8 => some { simpleInstr with getParent := 2 }
    | 12 => some (branchInstr 2 2 true)
    | 16 => some (branchInstr 3 1 false)
    | 20 => some { simpleInstr with getParent := 4, isReturn := true }
    | _ => none
  fetchNext ee := .ok (ee.1 + 4, if ee.1 < 20 then ee.2 else ⟨[]⟩)
  pcUpdate ee block := .ok (nestAddr block, ee.2)
  callTarget _ ee := .ok ee
  returnLocations _ _ := .ok []
  instructionExecutionTimes _ := some [6]
  needPersistenceScopes := true
  getEnteringScopes edge := if edge = (0, 1) then [0] else if edge = (1, 2) then [1] else []
  getLeavingScopes edge := if edge = (2, 3) then [1] else if edge = (1, 4) then [0] else []
  unblockStores := false

theorem endsOutside_nest (s : OutOfOrderPipelineState (ScopeCounted μ)) : EndsOutside nest s := by
  have hbehind : ∀ addr, nest.getMachineInstrByAddr addr = none →
      nest.getMachineInstrByAddr (addr + 4) = none := by
    intro addr hnone
    by_cases hlt : addr < 24
    · have hall : ∀ addr < 24, nest.getMachineInstrByAddr addr = none →
          nest.getMachineInstrByAddr (addr + 4) = none := by decide
      exact hall addr hlt hnone
    · simp only [nest]
      split <;> first | rfl | omega
  intro hnone pc hpc
  cases hpc
  exact hbehind s.pc.1 hnone

/-- The pipeline at the start of the outer loop. -/
def nestStart :
    OutOfOrderPipelineState (ScopeCounted (SingleMemoryTopology FixedLatencyCyclingMemory)) :=
  match new oneCycleTopology.counting (0, ⟨[.none]⟩) with
  | .ok s => s
  | .error _ => { straightLineStart with memory := oneCycleTopology.counting.new }

/-- What happens when the successors at the positions are taken, and the state after that. -/
def nestAfter (ns : List ℕ) : List CycleLog ×
    OutOfOrderPipelineState (ScopeCounted (SingleMemoryTopology FixedLatencyCyclingMemory)) :=
  (successorAlong (loggedCycle nest oneCycleTopology.counting noDataAccesses) ns
    ([], nestStart)).getD ([], nestStart)

theorem run_nestAfter (ns : List ℕ) : Run nest oneCycleTopology.counting (EndsOutside nest)
    (nestAfter ns).1 (nestAfter ns).2 := by
  have hstart : Run nest oneCycleTopology.counting (EndsOutside nest) [] nestStart :=
    .new (rfl : new oneCycleTopology.counting (0, ⟨[.none]⟩) = .ok nestStart)
  unfold nestAfter
  cases hrun : successorAlong (loggedCycle nest oneCycleTopology.counting noDataAccesses) ns
    ([], nestStart) with
  | none => exact hstart
  | some run => exact run_of_successorAlong endsOutside_nest hstart hrun

/-- The inner loop is repeated against the expectation, which flushes the pipeline. -/
theorem scopesBalanced_nest : ∃ logs s, ScopesBalanced nest logs s ∧
    logs.any CycleLog.flushed = true ∧ (s : OutOfOrderPipelineState
      (ScopeCounted (SingleMemoryTopology FixedLatencyCyclingMemory))).memory.left = [1, 1] :=
  ⟨_, _, scopesBalanced_of_run rfl (run_nestAfter (List.replicate 10 0 ++ [1])) (by decide +kernel),
    by decide +kernel, by decide +kernel⟩

/-- When it is repeated, its header is committed while it is in flight again behind a further
iteration of the outer loop, whose entrance is then forgotten. When the outer loop ends, the
scope of the inner one is not left often enough. -/
theorem entrance_forgotten : ∃ logs s, Run nest oneCycleTopology.counting (EndsOutside nest) logs s ∧
    ¬ ScopesBalanced nest logs s := by
  refine ⟨_, _, run_nestAfter (List.replicate 10 0 ++ 1 :: List.replicate 9 0 ++ [1]), ?_⟩
  intro h
  have hnet := h.net 1
  revert hnet
  decide +kernel

end Nest

end Llvmta.MicroArch.OutOfOrderPipelineState
