import Llvmta.MicroarchitecturalAnalysis.OutOfOrderConservation

/-!
# Data accesses of the out-of-order pipeline

A run is observed together with the accesses that the units start and finish, each noted for
the instruction it belongs to, and with the instructions that leave the reorder buffer. No
access is started behind a branch, call or return that is still in the buffer, and a flush is
caused by the commit of such an instruction or of one behind which nothing was fetched. So no
access is pending when the pipeline is flushed, and a committed load or store has performed its
accesses one after the other.
-/

namespace Llvmta.MicroArch

open Checked

/-- A data access is started, with the branches in front of its instruction resolved or not,
or the memory has finished it. -/
inductive AccessEvent where
  | started (access : ℕ) (resolved : Bool)
  | finished (access : ℕ)
  deriving DecidableEq, Repr

/-- How an instruction leaves the reorder buffer. -/
inductive Fate where
  | committed
  | flushed
  deriving DecidableEq, Repr

/-- The instructions that left the reorder buffer, in the order of their issue, and what was
observed of each instruction that was issued. -/
structure AccessTrace where
  removed : List (ExecutionElement × Fate)
  events : ℕ → List AccessEvent

namespace OutOfOrderPipelineState

open ReservationStation

variable (P : Program) {μ : Type} (M : MemoryTopology μ)

section Observation

/-- The instruction whose accesses the unit performs. -/
def accessingTag (fu : FunctionalUnit) : Option RobTag :=
  match fu.derived with
  | .loadStore executingInstruction _ _ => executingInstruction
  | _ => none

/-- The accesses of the one map that do not stand in the other. -/
def accessesBeside (ids others : OrderedMap ℕ ℕ) : List ℕ :=
  ids.keys.filter fun access => (others.find? access).isNone

/-- No instruction in front of the tag is a conditional branch, a call or a return. -/
def resolvedBefore (rob : ReOrderBuffer) (tag : RobTag) : Bool :=
  (rob.elements.take (rob.getRelativeToHead tag)).all fun elem =>
    (P.getMachineInstrByAddr elem.executionElement.1).all fun mi => !ReOrderBuffer.endsCommit mi

/-- What happens to the accesses of a unit in a cycle that makes it another one: those that
the memory no longer finds pending are finished, those that are pending thereafter started. -/
def accessEvents (rob : ReOrderBuffer) (tag : RobTag) (memory : μ) (fu fu' : FunctionalUnit) :
    List AccessEvent :=
  let ids := fu.pendingAccesses
  let polled := (FunctionalUnit.pollAccesses M memory ids.entries ids).2
  (accessesBeside ids polled).map .finished ++
    (accessesBeside fu'.pendingAccesses polled).map (.started · (resolvedBefore P rob tag))

/-- Notes what happens in the cycle of a unit for the instruction whose accesses it performs,
when the number of instructions has left the reorder buffer. -/
def noteAccesses (removed i : ℕ) (s t : OutOfOrderPipelineState μ)
    (events : ℕ → List AccessEvent) : ℕ → List AccessEvent :=
  match s.funcUnits[i]?, t.funcUnits[i]? with
  | some fu, some fu' =>
    match accessingTag fu with
    | some tag =>
      let issued := removed + s.reOrderBuffer.getRelativeToHead tag
      Function.update events issued
        (events issued ++ accessEvents P M s.reOrderBuffer tag s.memory fu fu')
    | none => events
  | _, _ => events

/-- The cycles of the functional units, with the notes before and thereafter. -/
inductive UnitsTraced (addrInfo : AddressInformation) (removed : ℕ) :
    List ℕ → OutOfOrderPipelineState μ → (ℕ → List AccessEvent) →
      OutOfOrderPipelineState μ → (ℕ → List AccessEvent) → Prop
  | nil {s : OutOfOrderPipelineState μ} {events : ℕ → List AccessEvent} :
    UnitsTraced addrInfo removed [] s events s events
  | cons {i : ℕ} {is : List ℕ} {s t u : OutOfOrderPipelineState μ}
    {events events' : ℕ → List AccessEvent} (h : Leads (cycleFuncUnit P M addrInfo i) s t)
    (hu : UnitsTraced addrInfo removed is t (noteAccesses P M removed i s t events) u events') :
    UnitsTraced addrInfo removed (i :: is) s events u events'

/-- The instructions that leave the reorder buffer in a cycle: those that are committed, and
at a flush those that are left. -/
def leaving (tempFi : List ExecutionElement) (rob : ReOrderBuffer) (flushed : Bool) :
    List (ExecutionElement × Fate) :=
  tempFi.map (·, .committed) ++
    if flushed then rob.elements.map fun elem => (elem.executionElement, .flushed) else []

/-- A cycle with what was observed before and thereafter. -/
inductive CycleTraced (dep : StateDep) (s : OutOfOrderPipelineState μ) (T : AccessTrace) :
    OutOfOrderPipelineState μ → AccessTrace → CycleLog → Prop
  | stalls {memory memory' : μ} (hmemory : Leads (M.cycle false) s.memory memory)
    (hstall : M.shouldPipelineStall memory = true) (hforward : Forwards M memory memory') :
    CycleTraced dep s T { started s memory with memory := memory' } T ⟨[], [], [], false⟩
  | runs {memory memory' : μ} {u v w : OutOfOrderPipelineState μ}
    {fetched tempFi : List ExecutionElement} {flushed : Bool} {events : ℕ → List AccessEvent}
    (hmemory : Leads (M.cycle false) s.memory memory)
    (hstall : M.shouldPipelineStall memory = false)
    (hu : UnitsTraced P M dep.addrInfo T.removed.length (List.range s.funcUnits.length)
      (started s memory) T.events u events)
    (hv : cycleComponents P M dep.ins2ctx u = .ok (v, fetched, tempFi))
    (hw : Handles P M dep.ins2ctx tempFi v w flushed) (hforward : Forwards M w.memory memory') :
    CycleTraced dep s T (closes P M { w with memory := memory' } tempFi)
      ⟨T.removed ++ leaving tempFi v.reOrderBuffer flushed, events⟩
      ⟨fetched, tempFi, v.inFlight ++ v.nextFetch, flushed⟩

/-- The runs with what is observed in them. -/
inductive RunTraced (addrInfo : AddressInformation) :
    OutOfOrderPipelineState μ → AccessTrace → Prop
  | new {progloc : ExecutionElement} {s : OutOfOrderPipelineState μ}
    (hs : new M progloc = .ok s) : RunTraced addrInfo s ⟨[], fun _ => []⟩
  | cycle {ins2ctx : InstrContextMapping} {s s' : OutOfOrderPipelineState μ} {T T' : AccessTrace}
    {log : CycleLog} (h : RunTraced addrInfo s T)
    (hs' : CycleTraced P M ⟨ins2ctx, addrInfo⟩ s T s' T' log) : RunTraced addrInfo s' T'
  | isFinal {s : OutOfOrderPipelineState μ} {T : AccessTrace} (h : RunTraced addrInfo s T)
    (ee : ExecutionElement) : RunTraced addrInfo (isFinal P M s ee).2 T
  | resetLocalMetrics {s : OutOfOrderPipelineState μ} {T : AccessTrace}
    (h : RunTraced addrInfo s T) : RunTraced addrInfo (resetLocalMetrics M s) T
  | useBranchAssumption {s : OutOfOrderPipelineState μ} {T : AccessTrace}
    (h : RunTraced addrInfo s T) : RunTraced addrInfo s.useBranchAssumption T
  | useReturnAssumption {s : OutOfOrderPipelineState μ} {T : AccessTrace}
    (h : RunTraced addrInfo s T) : RunTraced addrInfo s.useReturnAssumption T

variable {P M}

theorem unitsTraced_of_unitsCycle {addrInfo : AddressInformation} (removed : ℕ) {is : List ℕ}
    {s u : OutOfOrderPipelineState μ} (h : UnitsCycle P M addrInfo is s u)
    (events : ℕ → List AccessEvent) :
    ∃ events', UnitsTraced P M addrInfo removed is s events u events' := by
  induction h generalizing events with
  | nil => exact ⟨events, .nil⟩
  | cons hlead _ ih =>
    obtain ⟨events', hrest⟩ := ih (noteAccesses P M removed _ _ _ events)
    exact ⟨events', .cons hlead hrest⟩

/-- Every cycle can be observed. -/
theorem exists_cycleTraced {dep : StateDep} {s t : OutOfOrderPipelineState μ} {log : CycleLog}
    (h : Leads (observedCycle P M dep) s (t, log)) (T : AccessTrace) :
    ∃ T', CycleTraced P M dep s T t T' log := by
  obtain ⟨results, hresults, hmem⟩ := h
  cases cycles_of_observedCycle hresults hmem with
  | stalls hmemory hstall hforward => exact ⟨T, .stalls hmemory hstall hforward⟩
  | runs hmemory hstall hu hv hw hforward =>
    obtain ⟨events, hu⟩ := unitsTraced_of_unitsCycle T.removed.length hu T.events
    exact ⟨_, .runs hmemory hstall hu hv hw hforward⟩

end Observation

section Pending

/-- The accesses up to a number, each after the one in front of it was finished. -/
def performed (n : ℕ) : List AccessEvent :=
  (List.range n).flatMap fun access => [.started access true, .finished access]

theorem performed_succ (n : ℕ) :
    performed (n + 1) = performed n ++ [.started n true] ++ [.finished n] := by
  unfold performed
  rw [List.range_succ, List.flatMap_append]
  simp

theorem started_not_mem_performed (access n : ℕ) : .started access false ∉ performed n := by
  simp [performed]

/-- The number of accesses was started, of which at most the last one is pending. -/
inductive Performing : ℕ → OrderedMap ℕ ℕ → List AccessEvent → Prop
  | finished {curr : ℕ} {ids : OrderedMap ℕ ℕ} (hnone : ids.entries = []) :
    Performing curr ids (performed curr)
  | pending {access id : ℕ} {ids : OrderedMap ℕ ℕ} (hone : ids.entries = [(access, id)]) :
    Performing (access + 1) ids (performed access ++ [.started access true])

variable {M} {curr : ℕ} {ids : OrderedMap ℕ ℕ} {evs : List AccessEvent}

theorem accessesBeside_self (ids : OrderedMap ℕ ℕ) : accessesBeside ids ids = [] := by
  apply List.filter_eq_nil_iff.mpr
  intro access hmem
  simpa using OrderedMap.mem_keys.mp hmem

theorem entries_insert_of_nil (hnone : ids.entries = []) (access id : ℕ) :
    (ids.insert access id).entries = [(access, id)] := by
  have heq : ids = .empty := OrderedMap.ext hnone
  subst heq
  rfl

/-- The memory may have finished the pending access. -/
theorem Performing.poll (memory : μ) (h : Performing curr ids evs) :
    Performing curr (FunctionalUnit.pollAccesses M memory ids.entries ids).2
      (evs ++ (accessesBeside ids
        (FunctionalUnit.pollAccesses M memory ids.entries ids).2).map .finished) := by
  cases h with
  | finished hnone =>
    rw [hnone]
    rw [FunctionalUnit.pollAccesses, accessesBeside_self, List.map_nil, List.append_nil]
    exact .finished hnone
  | @pending access id _ hone =>
    rw [hone]
    unfold FunctionalUnit.pollAccesses
    dsimp only
    rw [FunctionalUnit.pollAccesses]
    cases (M.finishedDataAccess memory id).1 with
    | false =>
      rw [if_neg Bool.false_ne_true, accessesBeside_self, List.map_nil, List.append_nil]
      exact .pending hone
    | true =>
      have hnone : (ids.erase access).entries = [] := by
        simp [OrderedMap.erase, OrderedMap.filter, hone]
      have hfinished : accessesBeside ids (ids.erase access) = [access] := by
        simp [accessesBeside, OrderedMap.keys, hone]
      rw [if_pos rfl, hfinished, List.map_singleton, ← performed_succ]
      exact .finished hnone

/-- When no access is pending all that were started are finished. -/
theorem Performing.eq_performed (h : Performing curr ids evs) (hnone : ids.entries = []) :
    evs = performed curr := by
  cases h with
  | finished => rfl
  | pending hone => exact nomatch hnone.symm.trans hone

theorem Performing.started_not_mem (h : Performing curr ids evs) (access : ℕ) :
    .started access false ∉ evs := by
  cases h with
  | finished => exact started_not_mem_performed access curr
  | pending => simp [started_not_mem_performed]

end Pending

section Resolved

variable {P} {r : ReOrderBuffer} {l : List ReOrderBufferElement}

/-- The element is a conditional branch, a call or a return. -/
def EndsCommit (P : Program) (ee : ExecutionElement) : Prop :=
  ∃ mi, P.getMachineInstrByAddr ee.1 = some mi ∧ ReOrderBuffer.endsCommit mi = true

/-- If the search from a slot up to another one finds no branch, then there is none. -/
theorem not_endsCommit_of_branchFrom (h : r.Holds l) {rounds j k : ℕ} (hk : k < l.length)
    (hjk : j ≤ k) (hbranch : r.branchFrom P (RingBuffer.slot r.robHead k) rounds
      (RingBuffer.slot r.robHead j) = .ok false) {i : ℕ} (hji : j ≤ i) (hik : i < k)
    {elem : ReOrderBufferElement} (helem : l[i]? = some elem) :
    ¬ EndsCommit P elem.executionElement := by
  induction rounds generalizing j with
  | zero => cases hbranch
  | succ rounds ih =>
    have hlt : k < 8 := hk.trans_le h.length_le
    have hne : RingBuffer.slot r.robHead j ≠ RingBuffer.slot r.robHead k :=
      RingBuffer.slot_ne (by omega) hlt (by omega)
    unfold ReOrderBuffer.branchFrom at hbranch
    rw [if_neg hne] at hbranch
    obtain ⟨elem', helem', hbranch⟩ := bind_eq_ok.mp hbranch
    obtain ⟨mi, hmi, hbranch⟩ := bind_eq_ok.mp hbranch
    split at hbranch
    · cases hbranch
    · next hends =>
      rcases hji.eq_or_lt with rfl | hji
      · have hget : r.rob.get (RingBuffer.slot r.robHead j) = some elem :=
          h.get_of_getElem? helem
        unfold ReOrderBuffer.elementAt at helem'
        rw [hget] at helem'
        cases helem'
        rintro ⟨mi', hmi', hends'⟩
        cases (Program.instrAt_eq_ok.mp hmi).symm.trans hmi'
        exact hends hends'
      · rw [RingBuffer.next_eq_slot, RingBuffer.slot_slot] at hbranch
        exact ih (by omega) hbranch hji

theorem not_endsCommit_of_isUnresolvedBranchBefore (h : r.Holds l) {k : ℕ} (hk : k < l.length)
    (hbranch : r.isUnresolvedBranchBefore P (RingBuffer.slot r.robHead k) = .ok false) :
    ∀ elem ∈ l.take k, ¬ EndsCommit P elem.executionElement := by
  intro elem hmem
  obtain ⟨i, hi⟩ := List.mem_iff_getElem?.mp hmem
  rw [List.getElem?_take] at hi
  split_ifs at hi with hik
  unfold ReOrderBuffer.isUnresolvedBranchBefore at hbranch
  nth_rewrite 2 [← RingBuffer.slot_zero r.robHead] at hbranch
  exact not_endsCommit_of_branchFrom h hk (Nat.zero_le k) hbranch (Nat.zero_le i) hik hi

theorem resolvedBefore_of_not_endsCommit (h : r.Holds l) {tag : RobTag}
    (hnone : ∀ elem ∈ l.take (r.getRelativeToHead tag), ¬ EndsCommit P elem.executionElement) :
    resolvedBefore P r tag = true := by
  unfold resolvedBefore
  rw [h.elements_eq, List.all_eq_true]
  intro elem hmem
  cases hmi : P.getMachineInstrByAddr elem.executionElement.1 with
  | none => rfl
  | some mi =>
    have hends : ReOrderBuffer.endsCommit mi ≠ true := fun hends => hnone elem hmem ⟨mi, hmi, hends⟩
    simpa using hends

end Resolved

section Invariant

/-- A load or store was seen to perform all its accesses. -/
def Performs (P : Program) (addrInfo : AddressInformation) (ee : ExecutionElement)
    (evs : List AccessEvent) : Prop :=
  ∀ mi, P.getMachineInstrByAddr ee.1 = some mi → (mi.mayLoad || mi.mayStore) = true →
    evs = performed (addrInfo.getNumOfDataAccesses ee.1)

/-- The unit is performing the accesses of the instruction with the tag. -/
def IsPerforming (addrInfo : AddressInformation) (ee : ExecutionElement) (evs : List AccessEvent)
    (fu : FunctionalUnit) (tag : RobTag) : Prop :=
  ∃ curr, fu.derived = .loadStore (some tag) curr fu.pendingAccesses ∧
    curr ≤ addrInfo.getNumOfDataAccesses ee.1 ∧ Performing curr fu.pendingAccesses evs

/-- The tags of the instructions whose accesses are being performed. -/
def accessingTags (units : List FunctionalUnit) : List RobTag := units.filterMap accessingTag

/-- What was seen of the instructions in the reorder buffer: nothing of those that wait in a
station, the started accesses of those in a unit, and all accesses of the others. -/
structure TracksAccesses (P : Program) (addrInfo : AddressInformation)
    (s : OutOfOrderPipelineState μ) (l : List ReOrderBufferElement) (removed : ℕ)
    (events : ℕ → List AccessEvent) : Prop where
  fresh : ∀ k, l.length ≤ k → events (removed + k) = []
  waiting : ∀ tag ∈ stationTags s.resStations,
    events (removed + s.reOrderBuffer.getRelativeToHead tag) = []
  settled : ∀ k elem, l[k]? = some elem →
    RingBuffer.slot s.reOrderBuffer.robHead k ∉ stationTags s.resStations →
    RingBuffer.slot s.reOrderBuffer.robHead k ∉ accessingTags s.funcUnits →
    Performs P addrInfo elem.executionElement (events (removed + k))
  units : ∀ fu ∈ s.funcUnits, accessingTag fu = none ∧ fu.pendingAccesses.entries = [] ∨
    ∃ tag elem, l[s.reOrderBuffer.getRelativeToHead tag]? = some elem ∧
      IsPerforming addrInfo elem.executionElement
        (events (removed + s.reOrderBuffer.getRelativeToHead tag)) fu tag
  /-- nothing was seen behind an unresolved branch -/
  resolved : ∀ k, events (removed + k) ≠ [] →
    ∀ elem ∈ l.take k, ¬ EndsCommit P elem.executionElement
  started : ∀ k access, .started access false ∉ events k

variable {P M} {addrInfo : AddressInformation} {s t : OutOfOrderPipelineState μ}
  {l : List ReOrderBufferElement} {bus : Option RobTag} {removed i : ℕ}
  {events : ℕ → List AccessEvent} {fu fu' : FunctionalUnit} {tag : RobTag}

theorem IsPerforming.accessingTag_eq {ee : ExecutionElement} {evs : List AccessEvent}
    (h : IsPerforming addrInfo ee evs fu tag) : accessingTag fu = some tag := by
  obtain ⟨curr, hderived, _⟩ := h
  rw [accessingTag, hderived]

theorem mem_getExecutingRobTags (h : accessingTag fu = some tag) :
    tag ∈ fu.getExecutingRobTags := by
  obtain ⟨finished, derived⟩ := fu
  cases derived with
  | simple => cases h
  | branch => cases h
  | loadStore executing curr ids =>
    have hexecuting : executing = some tag := h
    subst hexecuting
    exact List.mem_append_left _ (List.mem_singleton_self tag)

/-- What a unit holds is held neither by a station nor by another unit. -/
theorem HoldsTags.unique (h : HoldsTags s l bus) (hfu : s.funcUnits[i]? = some fu)
    (htag : tag ∈ fu.getExecutingRobTags) : tag ∉ stationTags s.resStations ∧
      ∀ j other, j ≠ i → s.funcUnits[j]? = some other → tag ∉ other.getExecutingRobTags := by
  have howned := h.owned tag
  have hle := Bool.toNat_le (s.reOrderBuffer.isExecuting tag)
  have hset := List.count_flatMap_set FunctionalUnit.getExecutingRobTags tag
    FunctionalUnit.newBranch hfu
  have hpos : 0 < fu.getExecutingRobTags.count tag := List.count_pos_iff.mpr htag
  have hnew : FunctionalUnit.newBranch.getExecutingRobTags.count tag = 0 := rfl
  rw [heldTags_eq, List.count_append] at howned
  unfold unitTags at howned
  constructor
  · intro hmem
    have hstation := List.count_pos_iff.mpr hmem
    omega
  · intro j other hne hother hmem
    have hother' : other ∈ s.funcUnits.set i FunctionalUnit.newBranch := by
      apply List.mem_of_getElem? (i := j)
      rwa [List.getElem?_set_ne hne.symm]
    have hcount : tag ∈ (s.funcUnits.set i FunctionalUnit.newBranch).flatMap
        FunctionalUnit.getExecutingRobTags := List.mem_flatMap.mpr ⟨other, hother', hmem⟩
    have hpos' := List.count_pos_iff.mpr hcount
    omega

/-- What another unit performs is not affected when a unit is replaced. -/
theorem mem_accessingTags_set {units : List FunctionalUnit} {tag : RobTag}
    (hfu : units[i]? = some fu) (hne : accessingTag fu ≠ some tag)
    (hmem : tag ∈ accessingTags units) : tag ∈ accessingTags (units.set i fu') := by
  obtain ⟨unit, hunit, htag⟩ := List.mem_filterMap.mp hmem
  obtain ⟨j, hj⟩ := List.mem_iff_getElem?.mp hunit
  have hij : i ≠ j := by
    rintro rfl
    cases hfu.symm.trans hj
    exact hne htag
  apply List.mem_filterMap.mpr ⟨unit, List.mem_of_getElem? (i := j) _, htag⟩
  rwa [List.getElem?_set_ne hij]

/-- A unit that performs no accesses becomes another such unit. -/
theorem TracksAccesses.setIdle (h : TracksAccesses P addrInfo s l removed events)
    (hfu : s.funcUnits[i]? = some fu) (hidle : accessingTag fu = none)
    (hidle' : accessingTag fu' = none) (hnone : fu'.pendingAccesses.entries = [])
    (memory : μ) (bus : Option RobTag) : TracksAccesses P addrInfo
      { s with memory, funcUnits := s.funcUnits.set i fu', commonDataBus := bus } l removed
      events := by
  refine ⟨h.fresh, h.waiting, fun k elem hk hstation haccessing => ?_, fun unit hunit => ?_,
    h.resolved, h.started⟩
  · apply h.settled k elem hk hstation
    exact fun hmem => haccessing (mem_accessingTags_set hfu (by simp [hidle]) hmem)
  · rcases List.mem_or_eq_of_mem_set hunit with hunit | rfl
    · exact h.units unit hunit
    · exact .inl ⟨hidle', hnone⟩

/-- The unit that performs the accesses of an instruction goes on or is done. -/
theorem TracksAccesses.setAccessing {elem : ReOrderBufferElement} {evs : List AccessEvent}
    (hs : HoldsTags s l s.commonDataBus) (h : TracksAccesses P addrInfo s l removed events)
    (hfu : s.funcUnits[i]? = some fu) (htag : accessingTag fu = some tag)
    (helem : l[s.reOrderBuffer.getRelativeToHead tag]? = some elem)
    (hnew : IsPerforming addrInfo elem.executionElement evs fu' tag ∨
      accessingTag fu' = none ∧ fu'.pendingAccesses.entries = [] ∧
        Performs P addrInfo elem.executionElement evs)
    (hresolved : evs ≠ [] → ∀ elem ∈ l.take (s.reOrderBuffer.getRelativeToHead tag),
      ¬ EndsCommit P elem.executionElement)
    (hstarted : ∀ access, .started access false ∉ evs) (memory : μ) (bus : Option RobTag) :
    TracksAccesses P addrInfo
      { s with memory, funcUnits := s.funcUnits.set i fu', commonDataBus := bus } l removed
      (Function.update events (removed + s.reOrderBuffer.getRelativeToHead tag) evs) := by
  obtain ⟨hstation, hunits⟩ := hs.unique hfu (mem_getExecutingRobTags htag)
  have hlt : s.reOrderBuffer.getRelativeToHead tag < l.length :=
    (List.getElem?_eq_some_iff.mp helem).1
  have hi : i < s.funcUnits.length := (List.getElem?_eq_some_iff.mp hfu).1
  have hself : Function.update events (removed + s.reOrderBuffer.getRelativeToHead tag) evs
      (removed + s.reOrderBuffer.getRelativeToHead tag) = evs := Function.update_self ..
  have hother {k : ℕ} (hne : k ≠ s.reOrderBuffer.getRelativeToHead tag) :
      Function.update events (removed + s.reOrderBuffer.getRelativeToHead tag) evs (removed + k) =
        events (removed + k) := Function.update_of_ne (by omega) ..
  have hoffset {tag' : RobTag} (hne : tag' ≠ tag) :
      s.reOrderBuffer.getRelativeToHead tag' ≠ s.reOrderBuffer.getRelativeToHead tag :=
    fun heq => hne (RingBuffer.offset_injective heq)
  refine ⟨fun k hk => ?_, fun tag' hmem => ?_, fun k elem' hk hstation' haccessing => ?_,
    fun unit hunit => ?_, fun k hk => ?_, fun k access => ?_⟩
  · rw [hother (by omega)]
    exact h.fresh k hk
  · rw [hother (hoffset fun heq => hstation (heq ▸ hmem))]
    exact h.waiting tag' hmem
  · by_cases hsame : k = s.reOrderBuffer.getRelativeToHead tag
    · subst hsame
      rw [hself]
      cases helem.symm.trans hk
      rcases hnew with hperforming | ⟨_, _, hperforms⟩
      · apply absurd _ haccessing
        have hslot : RingBuffer.slot s.reOrderBuffer.robHead
          (s.reOrderBuffer.getRelativeToHead tag) = tag := RingBuffer.slot_offset _ tag
        rw [hslot]
        apply List.mem_filterMap.mpr ⟨fu', List.mem_set hi fu', hperforming.accessingTag_eq⟩
      · exact hperforms
    · rw [hother hsame]
      apply h.settled k elem' hk hstation'
      refine fun hmem => haccessing (mem_accessingTags_set hfu (fun htag' => ?_) hmem)
      cases htag.symm.trans htag'
      have hk8 : k < 8 := (List.getElem?_eq_some_iff.mp hk).1.trans_le hs.holds.length_le
      exact hsame (RingBuffer.offset_slot _ hk8).symm
  · obtain ⟨j, hj⟩ := List.mem_iff_getElem?.mp hunit
    rw [List.getElem?_set] at hj
    split_ifs at hj with hij
    · cases hj
      rcases hnew with hperforming | ⟨hidle, hnone, _⟩
      · refine .inr ⟨tag, elem, helem, ?_⟩
        rwa [hself]
      · exact .inl ⟨hidle, hnone⟩
    · rcases h.units unit (List.mem_of_getElem? hj) with hidle | ⟨tag', elem', helem', hunit'⟩
      · exact .inl hidle
      · have hne : tag' ≠ tag := by
          rintro rfl
          exact hunits j unit (Ne.symm hij) hj (mem_getExecutingRobTags hunit'.accessingTag_eq)
        refine .inr ⟨tag', elem', helem', ?_⟩
        rwa [hother (hoffset hne)]
  · by_cases hsame : k = s.reOrderBuffer.getRelativeToHead tag
    · subst hsame
      rw [hself] at hk
      exact hresolved hk
    · rw [hother hsame] at hk
      exact h.resolved k hk
  · by_cases hsame : k = removed + s.reOrderBuffer.getRelativeToHead tag
    · subst hsame
      rw [hself]
      exact hstarted access
    · rw [Function.update_of_ne hsame]
      exact h.started k access

/-- Accesses that were not seen cannot be seen to be finished. -/
theorem Performing.beside_eq_nil {curr : ℕ} {ids : OrderedMap ℕ ℕ} (memory : μ)
    (h : Performing curr ids []) : accessesBeside ids
      (FunctionalUnit.pollAccesses M memory ids.entries ids).2 = [] := by
  generalize hevs : ([] : List AccessEvent) = evs at h
  cases h with
  | finished hnone =>
    rw [hnone]
    exact accessesBeside_self ids
  | pending => exact absurd hevs.symm (by simp)

/-- What a cycle does to the unit and to what was seen of its instruction. -/
theorem IsPerforming.cycle {rob : ReOrderBuffer} {ee : ExecutionElement} {evs : List AccessEvent}
    {memory memory' : μ} (hcycle : fu.Cycles P M rob addrInfo memory fu' memory')
    (hee : rob.getExecutionElementForRobTag tag = .ok ee)
    (hresolved : rob.isUnresolvedBranchBefore P tag = .ok false → resolvedBefore P rob tag = true)
    (h : IsPerforming addrInfo ee evs fu tag) :
    (IsPerforming addrInfo ee (evs ++ accessEvents P M rob tag memory fu fu') fu' tag ∨
      accessingTag fu' = none ∧ fu'.pendingAccesses.entries = [] ∧
        evs ++ accessEvents P M rob tag memory fu fu' =
          performed (addrInfo.getNumOfDataAccesses ee.1)) ∧
      (evs ++ accessEvents P M rob tag memory fu fu' ≠ [] →
        evs ≠ [] ∨ rob.isUnresolvedBranchBefore P tag = .ok false) ∧
      ∀ access, .started access false ∉ evs ++ accessEvents P M rob tag memory fu fu' := by
  obtain ⟨curr, hderived, hle, hperforming⟩ := h
  cases hcycle with
  | idle hfinished =>
    rw [FunctionalUnit.getExecutingRobTags, hderived] at hfinished
    exact absurd (congrArg List.length hfinished) (by simp)
  | executes => cases hderived
  | finishes => cases hderived
  | @waits finished _ _ robTag curr' ids ids' hpoll =>
    cases hderived
    have hpolled := hperforming.poll (M := M) memory
    have hnil (hevs : evs = []) := Performing.beside_eq_nil (M := M) memory (hevs ▸ hperforming)
    unfold accessEvents
    dsimp only [FunctionalUnit.pendingAccesses] at hpolled hnil ⊢
    rw [hpoll] at hpolled hnil ⊢
    dsimp only at hpolled hnil ⊢
    rw [accessesBeside_self, List.map_nil, List.append_nil]
    refine ⟨.inl ⟨curr, rfl, hle, hpolled⟩, fun hne => .inl fun hevs => hne ?_,
      hpolled.started_not_mem⟩
    rw [hnil hevs, hevs]
    rfl
  | @accesses finished _ _ _ robTag curr' id ids ids' addr accessType hpoll hnone hbranch haccess
      execElem helem hcurr =>
    cases hderived
    cases hee.symm.trans helem
    have hpolled := hperforming.poll (M := M) memory
    unfold accessEvents
    dsimp only [FunctionalUnit.pendingAccesses] at hpolled ⊢
    rw [hpoll] at hpolled ⊢
    dsimp only at hpolled ⊢
    have hinsert := entries_insert_of_nil hnone curr id
    have hstarted : accessesBeside (ids'.insert curr id) ids' = [curr] := by
      have hempty : ids' = .empty := OrderedMap.ext hnone
      subst hempty
      rfl
    rw [hstarted, hresolved hbranch, List.map_singleton, ← List.append_assoc,
      hpolled.eq_performed hnone]
    exact ⟨.inl ⟨curr + 1, rfl, hcurr, .pending hinsert⟩, fun _ => .inr hbranch,
      (Performing.pending hinsert).started_not_mem⟩
  | @completes finished _ _ robTag curr' ids ids' hpoll hnone hbranch execElem helem hcurr =>
    cases hderived
    cases hee.symm.trans helem
    have hpolled := hperforming.poll (M := M) memory
    unfold accessEvents
    dsimp only [FunctionalUnit.pendingAccesses] at hpolled ⊢
    rw [hpoll] at hpolled ⊢
    dsimp only at hpolled ⊢
    rw [accessesBeside_self, List.map_nil, List.append_nil, hpolled.eq_performed hnone,
      le_antisymm hle hcurr]
    exact ⟨.inr ⟨rfl, hnone, rfl⟩, fun _ => .inr hbranch, fun access =>
      started_not_mem_performed access _⟩

theorem getExecutionElementForRobTag_eq {r : ReOrderBuffer} {elem : ReOrderBufferElement}
    (h : r.Holds l) (helem : l[r.getRelativeToHead tag]? = some elem) :
    r.getExecutionElementForRobTag tag = .ok elem.executionElement := by
  have hget : r.rob.get tag = some elem := by
    have hslot : RingBuffer.slot r.robHead (r.getRelativeToHead tag) = tag :=
      RingBuffer.slot_offset _ tag
    rw [← hslot]
    exact h.get_of_getElem? helem
  unfold ReOrderBuffer.getExecutionElementForRobTag ReOrderBuffer.elementAt
  rw [hget]
  rfl

theorem noteAccesses_of_idle (hfu : s.funcUnits[i]? = some fu) (hidle : accessingTag fu = none) :
    noteAccesses P M removed i s t events = events := by
  unfold noteAccesses
  rw [hfu]
  split
  · next hunit _ =>
    cases hunit
    rw [hidle]
  · rfl

theorem noteAccesses_of_accessing (hfu : s.funcUnits[i]? = some fu)
    (htag : accessingTag fu = some tag) (hfu' : t.funcUnits[i]? = some fu') :
    noteAccesses P M removed i s t events =
      Function.update events (removed + s.reOrderBuffer.getRelativeToHead tag)
        (events (removed + s.reOrderBuffer.getRelativeToHead tag) ++
          accessEvents P M s.reOrderBuffer tag s.memory fu fu') := by
  unfold noteAccesses
  rw [hfu, hfu']
  dsimp only
  rw [htag]

theorem noteAccesses_of_lt {j : ℕ} (hj : j < removed) :
    noteAccesses P M removed i s t events j = events j := by
  unfold noteAccesses
  cases s.funcUnits[i]? with
  | none => rfl
  | some fu =>
    cases t.funcUnits[i]? with
    | none => rfl
    | some fu' =>
      dsimp only
      cases accessingTag fu with
      | none => rfl
      | some tag => exact Function.update_of_ne (by omega) ..

/-- The accesses of a unit are noted in its cycle. -/
theorem TracksAccesses.cycleFuncUnit (hs : HoldsTags s l s.commonDataBus)
    (h : TracksAccesses P addrInfo s l removed events)
    (ht : Leads (cycleFuncUnit P M addrInfo i) s t) :
    TracksAccesses P addrInfo t l removed (noteAccesses P M removed i s t events) := by
  obtain ⟨fu, fu', memory, hfu, hcycle, rfl⟩ := cycleFuncUnit_cases ht
  obtain ⟨fu₂, bus, heq, hcases⟩ := broadcast_eq { s with memory } i fu'
  have hderived : fu₂.derived = fu'.derived := by
    obtain ⟨rfl, _⟩ | ⟨tag, _, _, rfl, _⟩ := hcases <;> rfl
  have htags : accessingTag fu₂ = accessingTag fu' := by rw [accessingTag, hderived, accessingTag]
  have hids : fu₂.pendingAccesses = fu'.pendingAccesses := by
    rw [FunctionalUnit.pendingAccesses, hderived, FunctionalUnit.pendingAccesses]
  have hi : i < s.funcUnits.length := (List.getElem?_eq_some_iff.mp hfu).1
  rcases h.units fu (List.mem_of_getElem? hfu) with ⟨hidle, hnone⟩ | ⟨tag, elem, helem, hperforming⟩
  · rw [noteAccesses_of_idle hfu hidle, heq]
    have hidle' : accessingTag fu' = none ∧ fu'.pendingAccesses.entries = [] := by
      cases hcycle with
      | idle => exact ⟨hidle, hnone⟩
      | executes => exact ⟨rfl, rfl⟩
      | finishes => exact ⟨rfl, rfl⟩
      | waits => exact nomatch hidle
      | accesses => exact nomatch hidle
      | completes => exact nomatch hidle
    rw [← htags, ← hids] at hidle'
    exact h.setIdle hfu hidle hidle'.1 hidle'.2 memory bus
  · have htag := hperforming.accessingTag_eq
    have hlt : s.reOrderBuffer.getRelativeToHead tag < l.length :=
      (List.getElem?_eq_some_iff.mp helem).1
    have hbefore (hbranch : s.reOrderBuffer.isUnresolvedBranchBefore P tag = .ok false) :
        ∀ elem ∈ l.take (s.reOrderBuffer.getRelativeToHead tag),
          ¬ EndsCommit P elem.executionElement := by
      apply not_endsCommit_of_isUnresolvedBranchBefore hs.holds hlt
      rwa [show RingBuffer.slot s.reOrderBuffer.robHead (s.reOrderBuffer.getRelativeToHead tag) =
        tag from RingBuffer.slot_offset _ tag]
    obtain ⟨hnew, hresolved, hstarted⟩ := IsPerforming.cycle hcycle
      (getExecutionElementForRobTag_eq hs.holds helem)
      (fun hbranch => resolvedBefore_of_not_endsCommit hs.holds (hbefore hbranch)) hperforming
    have hevents : accessEvents P M s.reOrderBuffer tag s.memory fu fu' =
        accessEvents P M s.reOrderBuffer tag s.memory fu fu₂ := by
      rw [accessEvents, accessEvents, hids]
    have hunit : (broadcast { s with memory } i fu').funcUnits[i]? = some fu₂ := by
      rw [heq]
      exact List.getElem?_set_self hi
    rw [noteAccesses_of_accessing hfu htag hunit, ← hevents, heq]
    apply h.setAccessing hs hfu htag helem _ _ hstarted memory bus
    · rcases hnew with ⟨curr, hexecuting, hle, hgoes⟩ | ⟨hidle, hnone, hdone⟩
      · rw [← hderived] at hexecuting
        rw [← hids] at hexecuting hgoes
        exact .inl ⟨curr, hexecuting, hle, hgoes⟩
      · rw [← htags] at hidle
        rw [← hids] at hnone
        exact .inr ⟨hidle, hnone, fun _ _ _ => hdone⟩
    · intro hne
      rcases hresolved hne with hne | hbranch
      · exact h.resolved _ hne
      · exact hbefore hbranch

theorem TracksAccesses.unitsTraced {is : List ℕ} {events' : ℕ → List AccessEvent}
    (hs : HoldsTags s l s.commonDataBus) (h : TracksAccesses P addrInfo s l removed events)
    (ht : UnitsTraced P M addrInfo removed is s events t events') :
    UnitsCycle P M addrInfo is s t ∧ TracksAccesses P addrInfo t l removed events' ∧
      ∀ j < removed, events' j = events j := by
  induction ht with
  | nil => exact ⟨.nil, h, fun _ _ => rfl⟩
  | cons hlead _ ih =>
    obtain ⟨hmiddle, _, _⟩ := hs.cycleFuncUnit hlead
    obtain ⟨hunits, htracks, hsame⟩ := ih hmiddle (h.cycleFuncUnit hs hlead)
    refine ⟨.cons hlead hunits, htracks, fun j hj => ?_⟩
    rw [hsame j hj, noteAccesses_of_lt hj]

theorem TracksAccesses.congr (h : TracksAccesses P addrInfo s l removed events)
    (hsame : SameBuffers s t) (hunits : t.funcUnits = s.funcUnits) :
    TracksAccesses P addrInfo t l removed events := by
  refine ⟨h.fresh, ?_, ?_, ?_, h.resolved, h.started⟩
  · rw [hsame.resStations, hsame.reOrderBuffer]
    exact h.waiting
  · rw [hsame.resStations, hsame.reOrderBuffer, hunits]
    exact h.settled
  · rw [hsame.reOrderBuffer, hunits]
    exact h.units

/-- What is held stands in the reorder buffer. -/
theorem HoldsTags.exists_of_held (h : HoldsTags s l bus) (hmem : tag ∈ s.heldTags) :
    ∃ k elem, RingBuffer.slot s.reOrderBuffer.robHead k = tag ∧ l[k]? = some elem ∧
      s.reOrderBuffer.getRelativeToHead tag = k := by
  have hpos := List.count_pos_iff.mpr hmem
  have howned := h.owned tag
  have hexecuting : s.reOrderBuffer.isExecuting tag = true := by
    cases hexec : s.reOrderBuffer.isExecuting tag with
    | true => rfl
    | false =>
      rw [hexec, Bool.toNat_false] at howned
      omega
  obtain ⟨k, elem, rfl, hk, _⟩ := h.holds.isExecuting_iff.mp hexecuting
  have hlt : k < 8 := (List.getElem?_eq_some_iff.mp hk).1.trans_le h.holds.length_le
  exact ⟨k, elem, rfl, hk, RingBuffer.offset_slot _ hlt⟩

theorem mem_heldTags_of_accessing (hmem : tag ∈ accessingTags s.funcUnits) : tag ∈ s.heldTags := by
  obtain ⟨fu, hfu, htag⟩ := List.mem_filterMap.mp hmem
  exact List.mem_append_left _ (List.mem_flatMap.mpr ⟨fu, hfu, mem_getExecutingRobTags htag⟩)

/-- The instruction of the tag is no load or store. -/
def NoAccesses (P : Program) (rob : ReOrderBuffer) (l : List ReOrderBufferElement)
    (tag : RobTag) : Prop :=
  ∀ elem, l[rob.getRelativeToHead tag]? = some elem → ∀ mi,
    P.getMachineInstrByAddr elem.executionElement.1 = some mi →
      (mi.mayLoad || mi.mayStore) = false

/-- A unit that was free holds the dispatched instruction, whose accesses it performs if it is
a load or store. -/
theorem dispatched_cases {rob : ReOrderBuffer} {mi : MachineInstr} {units : List FunctionalUnit}
    (haccepts : FunctionalUnit.newBranch.canExecuteInstruction mi = true →
      (mi.mayLoad || mi.mayStore) = false)
    (h : Dispatches P rob units tag mi i fu fu') :
    accessingTag fu = none ∧ fu'.getExecutingRobTags = [tag] ∧
      (accessingTag fu' = none ∧ fu'.pendingAccesses.entries = [] ∧
          (mi.mayLoad || mi.mayStore) = false ∨
        fu'.derived = .loadStore (some tag) 0 fu.pendingAccesses) := by
  obtain ⟨_, _, hcan, hfree, hexecutes⟩ := h
  have htags := (FunctionalUnit.executeInstruction_eq_ok hexecutes).1
  obtain ⟨finished, derived⟩ := fu
  obtain ⟨_, _, hexecutes⟩ := bind_eq_ok.mp hexecutes
  cases derived with
  | simple executing =>
    obtain ⟨ee, _, hexecutes⟩ := bind_eq_ok.mp hexecutes
    obtain ⟨mi', _, hexecutes⟩ := bind_eq_ok.mp hexecutes
    have hnone : (mi.mayLoad || mi.mayStore) = false := by
      simp only [FunctionalUnit.canExecuteInstruction] at hcan
      grind
    split at hexecutes
    · cases hexecutes
      exact ⟨rfl, htags, .inl ⟨rfl, rfl, hnone⟩⟩
    · cases hexecutes
  | branch =>
    cases hexecutes
    exact ⟨rfl, htags, .inl ⟨rfl, rfl, haccepts hcan⟩⟩
  | loadStore executing curr ids =>
    cases hexecutes
    have hnone : executing = none := by
      simp only [FunctionalUnit.isFree, Bool.and_eq_true, Option.isNone_iff_eq_none] at hfree
      exact hfree.2
    exact ⟨hnone, htags, .inr rfl⟩

/-- What the units hold while the stations are cycled: those that perform accesses go on, and
what came from a station performs its accesses or has none. -/
structure UnitsTrack (P : Program) (addrInfo : AddressInformation) (s : OutOfOrderPipelineState μ)
    (l : List ReOrderBufferElement) (removed : ℕ) (events : ℕ → List AccessEvent)
    (units : List FunctionalUnit) : Prop where
  tracked : ∀ fu ∈ units, accessingTag fu = none ∧ fu.pendingAccesses.entries = [] ∨
    ∃ tag elem, l[s.reOrderBuffer.getRelativeToHead tag]? = some elem ∧
      IsPerforming addrInfo elem.executionElement
        (events (removed + s.reOrderBuffer.getRelativeToHead tag)) fu tag
  kept : ∀ tag ∈ accessingTags s.funcUnits, tag ∈ accessingTags units
  taken : ∀ tag ∈ unitTags units, tag ∈ unitTags s.funcUnits ∨ tag ∈ accessingTags units ∨
    NoAccesses P s.reOrderBuffer l tag

theorem UnitsTrack.dispatch {units : List FunctionalUnit} {mi : MachineInstr}
    (haccepts : FunctionalUnit.newBranch.canExecuteInstruction mi = true →
      (mi.mayLoad || mi.mayStore) = false)
    (hs : HoldsTags s l bus) (h : TracksAccesses P addrInfo s l removed events)
    (htag : tag ∈ stationTags s.resStations)
    (hdispatch : Dispatches P s.reOrderBuffer units tag mi i fu fu')
    (hunits : UnitsTrack P addrInfo s l removed events units) :
    UnitsTrack P addrInfo s l removed events (units.set i fu') := by
  obtain ⟨hidle, htags, hcases⟩ := dispatched_cases haccepts hdispatch
  have hfu := hdispatch.unit
  have hi : i < units.length := (List.getElem?_eq_some_iff.mp hfu).1
  obtain ⟨k, elem, hslot, hk, hrel⟩ := hs.exists_of_held (List.mem_append_right _ htag)
  rw [← hrel] at hk
  have hne (x : RobTag) : accessingTag fu ≠ some x := by simp [hidle]
  refine ⟨fun unit hunit => ?_, fun x hx => mem_accessingTags_set hfu (hne x) (hunits.kept x hx),
    fun x hx => ?_⟩
  · rcases List.mem_or_eq_of_mem_set hunit with hunit | rfl
    · exact hunits.tracked unit hunit
    · rcases hcases with ⟨hidle', hnone, _⟩ | hderived
      · exact .inl ⟨hidle', hnone⟩
      · have hids : unit.pendingAccesses = fu.pendingAccesses := by
          rw [FunctionalUnit.pendingAccesses, hderived]
        have hnone : fu.pendingAccesses.entries = [] := by
          rcases hunits.tracked fu (List.mem_of_getElem? hfu) with ⟨_, hnone⟩ | ⟨tag', _, _, hunit'⟩
          · exact hnone
          · exact nomatch hidle.symm.trans hunit'.accessingTag_eq
        refine .inr ⟨tag, elem, hk, 0, by rw [hids, hderived], Nat.zero_le _, ?_⟩
        rw [h.waiting tag htag, hids]
        exact .finished hnone
  · obtain ⟨unit, hunit, hmem⟩ := List.mem_flatMap.mp hx
    rcases List.mem_or_eq_of_mem_set hunit with hunit | rfl
    · rcases hunits.taken x (List.mem_flatMap.mpr ⟨unit, hunit, hmem⟩) with hold | haccessing | hno
      · exact .inl hold
      · exact .inr (.inl (mem_accessingTags_set hfu (hne x) haccessing))
      · exact .inr (.inr hno)
    · rw [htags] at hmem
      cases List.mem_singleton.mp hmem
      rcases hcases with ⟨_, _, hno⟩ | hderived
      · refine .inr (.inr fun elem' helem' mi' hmi' => ?_)
        obtain ⟨ee, hee, hmi⟩ := hdispatch.instr
        cases hee.symm.trans (getExecutionElementForRobTag_eq hs.holds helem')
        cases (Program.instrAt_eq_ok.mp hmi).symm.trans hmi'
        exact hno
      · have htag' : accessingTag unit = some tag := by rw [accessingTag, hderived]
        exact .inr (.inl (List.mem_filterMap.mpr ⟨unit, List.mem_set hi unit, htag'⟩))

/-- Stations hand instructions without accesses to units that start with them. -/
theorem TracksAccesses.cycleAll {funcUnits : List FunctionalUnit}
    {resStations : List ReservationStation}
    (haccepts : ∀ addr mi, P.getMachineInstrByAddr addr = some mi →
      FunctionalUnit.newBranch.canExecuteInstruction mi = true →
        (mi.mayLoad || mi.mayStore) = false)
    (hs : HoldsTags s l s.commonDataBus) (h : TracksAccesses P addrInfo s l removed events)
    (hstations : cycleAll P s.reOrderBuffer s.commonDataBus s.funcUnits s.resStations =
      .ok (funcUnits, resStations)) :
    TracksAccesses P addrInfo { s with funcUnits, resStations } l removed events := by
  have hunits : UnitsTrack P addrInfo s l removed events funcUnits := by
    refine cycleAll_invariant (fun units tag mi i fu fu' htag hdispatch hunits => ?_)
      ⟨h.units, fun _ hx => hx, fun _ hx => .inl hx⟩ hstations
    obtain ⟨ee, _, hmi⟩ := hdispatch.instr
    exact hunits.dispatch (haccepts ee.1 mi (Program.instrAt_eq_ok.mp hmi)) hs h htag hdispatch
  obtain ⟨_, hafter, hcount⟩ := cycleAll_eq_ok hs.units.single hstations
  refine ⟨h.fresh, fun tag htag => ?_, fun k elem hk hstation haccessing => ?_, hunits.tracked,
    h.resolved, h.started⟩
  · obtain ⟨rS', hrS', hmem⟩ := List.mem_flatMap.mp htag
    obtain ⟨rS, hrS, _, hstays⟩ := exists_of_afterCycle hafter hrS'
    obtain ⟨elem', helem', rfl⟩ := List.mem_map.mp hmem
    obtain ⟨elem, helem, heq, _⟩ := hstays elem' helem'
    rw [heq]
    exact h.waiting _ (List.mem_flatMap.mpr ⟨rS, hrS, List.mem_map.mpr ⟨elem, helem, rfl⟩⟩)
  · have hstation' : (stationTags resStations).count
        (RingBuffer.slot s.reOrderBuffer.robHead k) = 0 := List.count_eq_zero.mpr hstation
    by_cases hold : RingBuffer.slot s.reOrderBuffer.robHead k ∈ stationTags s.resStations
    · have hx := hcount (RingBuffer.slot s.reOrderBuffer.robHead k)
      have hpos := List.count_pos_iff.mpr hold
      have hunit : RingBuffer.slot s.reOrderBuffer.robHead k ∈ unitTags funcUnits :=
        List.count_pos_iff.mp (by omega)
      rcases hunits.taken _ hunit with hunit | hunit | hno
      · have howned := hs.owned (RingBuffer.slot s.reOrderBuffer.robHead k)
        have hle := Bool.toNat_le
          (s.reOrderBuffer.isExecuting (RingBuffer.slot s.reOrderBuffer.robHead k))
        have hpos' := List.count_pos_iff.mpr hunit
        rw [heldTags_eq, List.count_append] at howned
        omega
      · exact absurd hunit haccessing
      · have hlt : k < 8 := (List.getElem?_eq_some_iff.mp hk).1.trans_le hs.holds.length_le
        have hrel : s.reOrderBuffer.getRelativeToHead
          (RingBuffer.slot s.reOrderBuffer.robHead k) = k := RingBuffer.offset_slot _ hlt
        intro mi hmi haccess
        rw [hno elem (hrel.symm ▸ hk) mi hmi] at haccess
        exact nomatch haccess
    · exact h.settled k elem hk hold fun hmem => haccessing (hunits.kept _ hmem)

/-- When instructions are committed their accesses were performed. -/
theorem TracksAccesses.commit {done rest : List ReOrderBufferElement} (hl : l.length ≤ 8)
    (h : TracksAccesses P addrInfo s l removed events) (ht : HoldsTags t rest none)
    (hstations : t.resStations = s.resStations) (hunits : t.funcUnits = s.funcUnits)
    (heq : ReOrderBuffer.finished s.reOrderBuffer.robHead bus l = done ++ rest)
    (hhead : t.reOrderBuffer.robHead = RingBuffer.slot s.reOrderBuffer.robHead done.length) :
    TracksAccesses P addrInfo t rest (removed + done.length) events ∧
      ∀ j elem, done[j]? = some elem →
        Performs P addrInfo elem.executionElement (events (removed + j)) := by
  have hlength : done.length + rest.length = l.length := by
    have hlength := congrArg List.length heq
    rw [ReOrderBuffer.length_finished, List.length_append] at hlength
    exact hlength.symm
  have hget {j : ℕ} {elem : ReOrderBufferElement} (helem : (done ++ rest)[j]? = some elem) :
      ∃ elem₀, l[j]? = some elem₀ ∧ elem.executionElement = elem₀.executionElement := by
    rw [← heq, ReOrderBuffer.getElem?_finished] at helem
    obtain ⟨elem₀, helem₀, rfl⟩ := Option.map_eq_some_iff.mp helem
    refine ⟨elem₀, helem₀, ?_⟩
    split_ifs <;> rfl
  have hrest {j : ℕ} {elem : ReOrderBufferElement} (helem : rest[j]? = some elem) :
      ∃ elem₀, l[done.length + j]? = some elem₀ ∧
        elem.executionElement = elem₀.executionElement := by
    apply hget
    rw [List.getElem?_append_right (Nat.le_add_right _ _), Nat.add_sub_cancel_left]
    exact helem
  have hslot (j : ℕ) : RingBuffer.slot t.reOrderBuffer.robHead j =
      RingBuffer.slot s.reOrderBuffer.robHead (done.length + j) := by
    rw [hhead, RingBuffer.slot_slot]
  have hheld {tag : RobTag} (hmem : tag ∈ t.heldTags) : ∃ elem,
      rest[t.reOrderBuffer.getRelativeToHead tag]? = some elem ∧
        s.reOrderBuffer.getRelativeToHead tag =
          done.length + t.reOrderBuffer.getRelativeToHead tag := by
    obtain ⟨j, elem, rfl, hj, hrel⟩ := ht.exists_of_held hmem
    have hlt : j < rest.length := (List.getElem?_eq_some_iff.mp hj).1
    refine ⟨elem, hrel.symm ▸ hj, ?_⟩
    rw [hrel, hslot]
    exact RingBuffer.offset_slot _ (by omega)
  refine ⟨⟨fun k hk => ?_, fun tag htag => ?_, fun k elem hk hstation haccessing => ?_,
    fun fu hfu => ?_, fun k hk elem helem => ?_, h.started⟩, fun j elem helem => ?_⟩
  · rw [Nat.add_assoc]
    exact h.fresh _ (by omega)
  · obtain ⟨_, _, hrel⟩ := hheld (List.mem_append_right _ htag)
    rw [Nat.add_assoc, ← hrel]
    exact h.waiting tag (hstations ▸ htag)
  · obtain ⟨elem₀, helem₀, hsame⟩ := hrest hk
    rw [hslot, hstations] at hstation
    rw [hslot, hunits] at haccessing
    rw [Nat.add_assoc, hsame]
    exact h.settled _ elem₀ helem₀ hstation haccessing
  · rcases h.units fu (hunits ▸ hfu) with hidle | ⟨tag, elem, helem, hperforming⟩
    · exact .inl hidle
    · have hmem : tag ∈ accessingTags t.funcUnits :=
        List.mem_filterMap.mpr ⟨fu, hfu, hperforming.accessingTag_eq⟩
      obtain ⟨elem', helem', hrel⟩ := hheld (mem_heldTags_of_accessing hmem)
      obtain ⟨elem₀, helem₀, hsame⟩ := hrest helem'
      rw [hrel] at helem hperforming
      cases helem.symm.trans helem₀
      refine .inr ⟨tag, elem', helem', ?_⟩
      rw [Nat.add_assoc, hsame]
      exact hperforming
  · obtain ⟨i, hi⟩ := List.mem_iff_getElem?.mp helem
    rw [List.getElem?_take] at hi
    split_ifs at hi with hik
    obtain ⟨elem₀, helem₀, hsame⟩ := hrest hi
    rw [hsame]
    apply h.resolved (done.length + k) (by rwa [← Nat.add_assoc])
    apply List.mem_of_getElem? (i := done.length + i)
    rw [List.getElem?_take, if_pos (by omega)]
    exact helem₀
  · have hj : j < done.length := (List.getElem?_eq_some_iff.mp helem).1
    obtain ⟨elem₀, helem₀, hsame⟩ := hget ((List.getElem?_append_left hj).trans helem)
    have hnot : RingBuffer.slot s.reOrderBuffer.robHead j ∉ t.heldTags := by
      intro hmem
      obtain ⟨_, _, hrel⟩ := hheld hmem
      have hoffset : s.reOrderBuffer.getRelativeToHead
        (RingBuffer.slot s.reOrderBuffer.robHead j) = j := RingBuffer.offset_slot _ (by omega)
      omega
    rw [hsame]
    apply h.settled j elem₀ helem₀
    · rw [← hstations]
      exact fun hmem => hnot (List.mem_append_right _ hmem)
    · rw [← hunits]
      exact fun hmem => hnot (mem_heldTags_of_accessing hmem)

/-- Of an instruction that is issued nothing was seen. -/
theorem TracksAccesses.issue {elem : ReOrderBufferElement} {ee : ExecutionElement}
    {mi : MachineInstr} {k : ℕ} (hs : HoldsTags s l none)
    (h : TracksAccesses P addrInfo s l removed events) (hissue : issueTo P s ee mi k = .ok t) :
    TracksAccesses P addrInfo t (l ++ [elem]) removed events := by
  obtain ⟨rob, rst, robTag, rS, rS', queue, hrob, hrS, hrS', hqueue, rfl⟩ := issueTo_eq_ok hissue
  obtain ⟨mi', destRegs, _, hlt, rfl, hhead, _, _, _⟩ := hs.holds.issueInstruction_eq_ok hrob
  cases issueInstruction_eq_ok hrS'
  have hrel (tag : RobTag) : rob.getRelativeToHead tag = s.reOrderBuffer.getRelativeToHead tag :=
    congrArg (RingBuffer.offset · tag) hhead
  have hcount (tag : RobTag) := List.count_flatMap_set ReservationStation.getExecutingRobTags tag
    { rS with reservationStation := rS.reservationStation ++
      [⟨RingBuffer.slot s.reOrderBuffer.robHead l.length, false, s.sourcesOf mi⟩] } hrS
  simp only [ReservationStation.getExecutingRobTags, List.map_append, List.count_append,
    List.map_cons, List.map_nil] at hcount
  have hnew : s.reOrderBuffer.getRelativeToHead (RingBuffer.slot s.reOrderBuffer.robHead l.length) =
      l.length := RingBuffer.offset_slot _ hlt
  refine ⟨fun j hj => ?_, fun tag htag => ?_, fun j elem' hj hstation haccessing => ?_,
    fun fu hfu => ?_, fun j hj => ?_, h.started⟩
  · rw [List.length_append] at hj
    exact h.fresh j (by omega)
  · rw [hrel]
    by_cases hold : tag ∈ stationTags s.resStations
    · exact h.waiting tag hold
    · have hpos := List.count_pos_iff.mpr htag
      have hzero := List.count_eq_zero.mpr hold
      have htag' := hcount tag
      unfold stationTags at hpos hzero
      have hone : 0 < [RingBuffer.slot s.reOrderBuffer.robHead l.length].count tag := by
        dsimp only at hpos
        omega
      cases List.mem_singleton.mp (List.count_pos_iff.mp hone)
      rw [hnew]
      exact h.fresh _ le_rfl
  · rw [show (RingBuffer.slot rob.robHead j) = RingBuffer.slot s.reOrderBuffer.robHead j by
      rw [hhead]] at hstation haccessing
    have hkept {tag : RobTag} (hcount' : 0 < (stationTags s.resStations).count tag ∨
        tag = RingBuffer.slot s.reOrderBuffer.robHead l.length) :
        tag ∈ stationTags (s.resStations.set k { rS with reservationStation :=
          rS.reservationStation ++
            [⟨RingBuffer.slot s.reOrderBuffer.robHead l.length, false, s.sourcesOf mi⟩] }) := by
      apply List.count_pos_iff.mp
      have htag' := hcount tag
      unfold stationTags at hcount' ⊢
      rcases hcount' with hpos | rfl
      · omega
      · rw [List.count_singleton_self] at htag'
        omega
    rw [List.getElem?_append] at hj
    split_ifs at hj with hjlt
    · exact h.settled j elem' hj
        (fun hmem => hstation (hkept (.inl (List.count_pos_iff.mpr hmem)))) haccessing
    · have hlast : j - l.length < 1 := (List.getElem?_eq_some_iff.mp hj).1
      have heq : j = l.length := by omega
      subst heq
      exact absurd (hkept (.inr rfl)) hstation
  · rcases h.units fu hfu with hidle | ⟨tag, elem', helem', hperforming⟩
    · exact .inl hidle
    · refine .inr ⟨tag, elem', ?_, ?_⟩
      · rw [hrel, List.getElem?_append_left (List.getElem?_eq_some_iff.mp helem').1]
        exact helem'
      · rw [hrel]
        exact hperforming
  · by_cases hle : j ≤ l.length
    · rw [List.take_append_of_le_length hle]
      exact h.resolved j hj
    · exact absurd (h.fresh j (by omega)) hj

theorem TracksAccesses.tryIssueInstr (hs : HoldsTags s l none)
    (h : TracksAccesses P addrInfo s l removed events) (ht : tryIssueInstr P s = .ok t) :
    ∃ new, HoldsTags t (l ++ new) none ∧ TracksAccesses P addrInfo t (l ++ new) removed events ∧
      flight t (l ++ new) = flight s l ∧
      t.instructionQueue.stallFetch = s.instructionQueue.stallFetch := by
  let H (x : OutOfOrderPipelineState μ) : Prop := ∃ new, HoldsTags x (l ++ new) none ∧
    TracksAccesses P addrInfo x (l ++ new) removed events ∧ flight x (l ++ new) = flight s l ∧
    x.instructionQueue.stallFetch = s.instructionQueue.stallFetch
  refine tryIssueInstr_invariant (I := H) ?_ ⟨[], ?_⟩ ht
  · rintro x x' ee mi k hmi _ ⟨new, hx, hIx, hflight, hstall⟩ hissue
    obtain ⟨elem, rfl, hx', hqueue⟩ := hx.issueTo hissue
    have hIx' : TracksAccesses P addrInfo x' ((l ++ new) ++ [elem]) removed events :=
      hIx.issue hx hissue
    rw [List.append_assoc] at hx' hIx'
    refine ⟨new ++ [elem], hx', hIx', ?_, ?_⟩
    · rw [← hflight]
      unfold flight
      rw [hqueue]
      simp
    · rw [← hstall]
      obtain ⟨_, _, _, _, _, _, _, _, _, _, rfl⟩ := issueTo_eq_ok hissue
      rfl
  · rw [List.append_nil]
    exact ⟨hs, h, rfl, rfl⟩

end Invariant

section Cycle

variable {P M} {addrInfo : AddressInformation} {s t : OutOfOrderPipelineState μ}
  {l : List ReOrderBufferElement} {removed : ℕ} {events : ℕ → List AccessEvent}

theorem funcUnits_of_fills {ins2ctx : InstrContextMapping} {fetched : List ExecutionElement}
    (ht : Fills P M ins2ctx s t fetched) : t.funcUnits = s.funcUnits := by
  cases ht with
  | skips => rfl
  | waits => rfl
  | ends => rfl
  | stops _ _ _ _ _ hu =>
    rw [branchEarly_eq_ok hu]
  | continues _ _ _ _ _ hu _ hv ht =>
    obtain ⟨id, memory, _, rfl⟩ := startAccess_eq_ok ht
    rw [branchEarly_eq_ok hu] at hv
    rcases enterScopesFrom_eq_ok hv with rfl | ⟨scopes, entrances, _, _, _, _, rfl⟩ <;> rfl

theorem noAccesses_of_acceptedOnce (haccepts : AcceptedOnce P) {addr : ℕ} {mi : MachineInstr}
    (hmi : P.getMachineInstrByAddr addr = some mi)
    (hbranch : FunctionalUnit.newBranch.canExecuteInstruction mi = true) :
    (mi.mayLoad || mi.mayStore) = false := by
  obtain ⟨k, _, honly⟩ := haccepts addr mi hmi
  by_contra haccess
  have hload : FunctionalUnit.newLoadStore.canExecuteInstruction mi = true :=
    (Bool.not_eq_false _).mp haccess
  have hone : 1 = k := by
    apply honly
    simp [initialStations, initialUnits, ReservationStation.new,
      ReservationStation.canExecuteInstruction, hbranch]
  have htwo : 2 = k := by
    apply honly
    simp [initialStations, initialUnits, ReservationStation.new,
      ReservationStation.canExecuteInstruction, hload]
  omega

/-- The committed loads and stores have performed their accesses, and nothing was seen of what
stands behind a committed instruction that flushes the pipeline. -/
theorem TracksAccesses.components {ins2ctx : InstrContextMapping}
    {fetched tempFi : List ExecutionElement} (haccepts : AcceptedOnce P)
    (hs : HoldsTags s l s.commonDataBus) (h : TracksAccesses P addrInfo s l removed events)
    (hfetch : FetchesUntil P s.instructionQueue.stallFetch (flight s l))
    (ht : cycleComponents P M ins2ctx s = .ok (t, fetched, tempFi)) :
    ∃ l', HoldsTags t l' none ∧
      TracksAccesses P addrInfo t l' (removed + tempFi.length) events ∧
      (∀ ee ∈ tempFi.dropLast, ¬ Flushes P ee) ∧
      (∀ (j : ℕ) (ee : ExecutionElement), tempFi[j]? = some ee →
        Performs P addrInfo ee (events (removed + j))) ∧
      ∀ (front : List ExecutionElement) (ee : ExecutionElement), tempFi = front ++ [ee] →
        Flushes P ee → ∀ k, events (removed + tempFi.length + k) = [] := by
  have hI : PhaseInvariant P fun (_ : OutOfOrderPipelineState μ) _ => True :=
    ⟨fun _ _ => trivial, fun _ _ _ _ _ => trivial, fun _ _ _ _ _ => trivial, fun _ => trivial⟩
  obtain ⟨_, _, _, _, _, l₀, _, _, _, ht₀, _, _, _, htfetch, hplain⟩ :=
    hs.components hI trivial hfetch ht
  obtain ⟨funcUnits, resStations, rob, rst, x, hstations, hrob, hx, hfills⟩ :=
    cycleComponents_eq_ok ht
  obtain ⟨rest, hbuffers, hcommitted, _⟩ := hs.cycleBuffers hstations hrob
  have hrest : HoldsTags { s with
      funcUnits, resStations, reOrderBuffer := rob, regStatTabl := rst
      finalInstructions := s.finalInstructions ++ tempFi } rest none :=
    hbuffers.congr ⟨rfl, rfl, rfl⟩ rfl
  obtain ⟨done, rest', heq, hholds, hhead, rfl, _, _, _⟩ :=
    hs.holds.cycle_eq_ok (I := fun _ _ _ => True) (fun _ _ _ _ _ _ => trivial) trivial hrob
  have hsame : rest' = rest := hholds.elements_eq.symm.trans hrest.holds.elements_eq
  subst hsame
  have hdispatched := h.cycleAll (fun _ _ hmi => noAccesses_of_acceptedOnce haccepts hmi) hs
    hstations
  obtain ⟨hcommit, hperforms⟩ :=
    hdispatched.commit hs.holds.length_le hrest rfl rfl heq hhead
  obtain ⟨new, hxs, hxt, _, _⟩ := hcommit.tryIssueInstr hrest hx
  have hnothing : FetchesUntil P x.instructionQueue.stallFetch [] :=
    ⟨(fun ee hee => nomatch hee), fun _ ee hee => nomatch hee⟩
  have hsame : SameBuffers x t := (holdsTags_of_fills hxs hfills hnothing).2.1
  have hts := hxs.congr hsame (funcUnits_of_fills hfills)
  have htt := hxt.congr hsame (funcUnits_of_fills hfills)
  have hl₀ : l₀ = rest' ++ new := ht₀.holds.elements_eq.symm.trans hts.holds.elements_eq
  subst hl₀
  rw [List.length_map]
  refine ⟨rest' ++ new, hts, htt, hplain, fun j ee hj => ?_, fun front ee hlast hflushes k => ?_⟩
  · rw [List.getElem?_map] at hj
    obtain ⟨elem, helem, rfl⟩ := Option.map_eq_some_iff.mp hj
    exact hperforms j elem helem
  · by_contra hne
    obtain ⟨mi, hmi, hcontrol⟩ := hflushes
    by_cases hends : EndsFetch P ee
    · -- nothing was fetched behind it
      have hnothing : flight t (rest' ++ new) = [] := by
        by_contra hsome
        apply htfetch.last ee _ hends
        rw [hlast, List.dropLast_append_of_ne_nil hsome]
        simp
      have hempty : rest' ++ new = [] :=
        List.map_eq_nil_iff.mp (List.append_eq_nil_iff.mp hnothing).1
      exact hne (htt.fresh k (by simp [hempty]))
    · have hcommitting : EndsCommit P ee := by
        refine ⟨mi, hmi, ?_⟩
        have hreturn : ¬ (mi.isReturn || mi.isJumpTableBranch) = true := fun h => hends ⟨mi, hmi, h⟩
        revert hcontrol hreturn
        unfold changesControlFlow ReOrderBuffer.endsCommit
        cases mi.isConditionalBranch <;> cases mi.isCall <;> cases mi.isReturn <;> simp
      have hmem : ee ∈ (l.take done.length).map ReOrderBufferElement.executionElement := by
        have htake : (l.map ReOrderBufferElement.executionElement).take done.length =
            done.map ReOrderBufferElement.executionElement := by
          rw [hcommitted, List.take_left' (List.length_map _)]
        rw [List.map_take, htake, hlast]
        exact List.mem_append_right front (List.mem_singleton_self ee)
      obtain ⟨elem, helem, heq'⟩ := List.mem_map.mp hmem
      refine h.resolved (done.length + k) (by rwa [← Nat.add_assoc]) elem ?_ (heq' ▸ hcommitting)
      have hprefix : l.take done.length <+: l.take (done.length + k) :=
        List.take_prefix_take_left (Nat.le_add_right _ _)
      exact hprefix.subset helem

theorem funcUnits_of_emptyPipeline {committedInstr : ℕ}
    (ht : emptyPipeline P M s committedInstr = .ok t) :
    t.funcUnits = s.funcUnits.map FunctionalUnit.flush := by
  obtain ⟨left, v, rob, hleft, hv, _, rfl⟩ := emptyPipeline_eq_ok ht
  obtain ⟨w, id, memory, hw, _, rfl⟩ := flushQueue_eq_ok hv
  have hkept : left.funcUnits = s.funcUnits := by
    rw [hleft]
    split_ifs <;> rfl
  have hsame : w.funcUnits = left.funcUnits := by
    rcases enterScopesFrom_eq_ok hw with rfl | ⟨scopes, entrances, _, _, _, _, rfl⟩ <;> rfl
  exact congrArg (List.map FunctionalUnit.flush) (hsame.trans hkept)

/-- A flush at the last of the committed instructions flushes the units. -/
theorem funcUnits_of_handles {ins2ctx : InstrContextMapping} {fis : List ExecutionElement}
    {flushed : Bool} (hplain : ∀ ee ∈ fis.dropLast, ¬ Flushes P ee)
    (ht : Handles P M ins2ctx fis s t flushed) (hflushed : flushed = true) :
    t.funcUnits = s.funcUnits.map FunctionalUnit.flush := by
  have hcommits (fi : ExecutionElement) (s : OutOfOrderPipelineState μ) :
      (commits P s fi).funcUnits = s.funcUnits := by
    obtain ⟨entrances, heq⟩ := commits_eq (P := P) s fi
    rw [heq]
  induction ht with
  | nil => exact nomatch hflushed
  | @plain fi fis mi s w flushed hmi hcontrol _ ih =>
    rw [ih (fun ee hee => hplain ee ?_) hflushed, hcommits]
    cases fis with
    | nil => exact nomatch hee
    | cons fi' fis => exact List.mem_cons_of_mem _ hee
  | @branch fi fis mi s t w m flushed hmi hcontrol _ ht hw _ =>
    cases fis with
    | nil =>
      cases hw
      exact (funcUnits_of_emptyPipeline ht).trans (congrArg _ (hcommits fi s))
    | cons fi' fis => exact absurd ⟨mi, hmi, hcontrol⟩ (hplain fi List.mem_cons_self)
  | @flushedAlternative fi fis mi s w m hmi hcontrol _ hw =>
    exact (funcUnits_of_emptyPipeline hw).trans (congrArg _ (hcommits fi s))
  | alternative => exact nomatch hflushed

/-- A flush forgets no accesses. -/
theorem pendingAccesses_flush (fu : FunctionalUnit) :
    accessingTag fu.flush = none ∧ fu.flush.pendingAccesses = fu.pendingAccesses := by
  obtain ⟨finished, derived⟩ := fu
  cases derived <;> exact ⟨rfl, rfl⟩

theorem Performing.entries_eq_nil {curr : ℕ} {ids : OrderedMap ℕ ℕ}
    (h : Performing curr ids []) : ids.entries = [] := by
  generalize hevs : ([] : List AccessEvent) = evs at h
  cases h with
  | finished hnone => exact hnone
  | pending => exact absurd hevs.symm (by simp)

/-- When nothing was seen of the instructions in the buffer, no access is pending. -/
theorem TracksAccesses.entries_eq_nil (h : TracksAccesses P addrInfo s l removed events)
    (hnone : ∀ k, events (removed + k) = []) :
    ∀ fu ∈ s.funcUnits, fu.pendingAccesses.entries = [] := by
  intro fu hfu
  rcases h.units fu hfu with ⟨_, hempty⟩ | ⟨tag, elem, _, curr, _, _, hperforming⟩
  · exact hempty
  · rw [hnone] at hperforming
    exact hperforming.entries_eq_nil

theorem TracksAccesses.flush {funcUnits : List FunctionalUnit}
    (hnone : ∀ k, events (removed + k) = []) (hstarted : ∀ k access, .started access false ∉ events k)
    (hpending : ∀ fu ∈ funcUnits, fu.pendingAccesses.entries = [])
    (hunits : s.funcUnits = funcUnits.map FunctionalUnit.flush) :
    TracksAccesses P addrInfo s [] removed events := by
  refine ⟨fun k _ => hnone k, fun tag _ => hnone _, (fun k elem hk => nomatch hk),
    fun fu hfu => ?_, fun k hk => absurd (hnone k) hk, hstarted⟩
  rw [hunits] at hfu
  obtain ⟨fu₀, hfu₀, rfl⟩ := List.mem_map.mp hfu
  obtain ⟨hidle, hids⟩ := pendingAccesses_flush fu₀
  exact .inl ⟨hidle, hids ▸ hpending fu₀ hfu₀⟩

/-- What was observed of the instructions that left the reorder buffer. -/
structure Accomplished (P : Program) (addrInfo : AddressInformation) (T : AccessTrace) : Prop where
  committed : ∀ (i : ℕ) (ee : ExecutionElement), T.removed[i]? = some (ee, .committed) →
    Performs P addrInfo ee (T.events i)
  flushed : ∀ (i : ℕ) (ee : ExecutionElement), T.removed[i]? = some (ee, .flushed) →
    T.events i = []

theorem CycleTraced.cycles {dep : StateDep} {T T' : AccessTrace} {log : CycleLog}
    (ht : CycleTraced P M dep s T t T' log) : Cycles P M dep s t log := by
  have hunits {is : List ℕ} {s u : OutOfOrderPipelineState μ} {events events' : ℕ → List AccessEvent}
      (h : UnitsTraced P M dep.addrInfo T.removed.length is s events u events') :
      UnitsCycle P M dep.addrInfo is s u := by
    induction h with
    | nil => exact .nil
    | cons hlead _ ih => exact .cons hlead ih
  cases ht with
  | stalls hmemory hstall hforward => exact .stalls hmemory hstall hforward
  | runs hmemory hstall hu hv hw hforward =>
    exact .runs hmemory hstall (hunits hu) hv hw hforward

theorem length_leaving (removed : List (ExecutionElement × Fate)) (tempFi : List ExecutionElement)
    (rob : ReOrderBuffer) (flushed : Bool) :
    (removed ++ leaving tempFi rob flushed).length =
      removed.length + tempFi.length + if flushed then rob.elements.length else 0 := by
  unfold leaving
  cases flushed <;> simp [Nat.add_assoc]

/-- What has left the reorder buffer left it before, is committed or is flushed. -/
theorem leaving_cases {removed : List (ExecutionElement × Fate)} {tempFi : List ExecutionElement}
    {rob : ReOrderBuffer} {flushed : Bool} {i : ℕ} {ee : ExecutionElement} {fate : Fate}
    (hi : (removed ++ leaving tempFi rob flushed)[i]? = some (ee, fate)) :
    removed[i]? = some (ee, fate) ∨
      (∃ j, i = removed.length + j ∧ tempFi[j]? = some ee ∧ fate = .committed) ∨
      flushed = true ∧ fate = .flushed ∧ ∃ j, i = removed.length + tempFi.length + j := by
  rw [List.getElem?_append] at hi
  split_ifs at hi with hlt
  · exact .inl hi
  · obtain ⟨j, rfl⟩ := Nat.exists_eq_add_of_le (not_lt.mp hlt)
    rw [Nat.add_sub_cancel_left, leaving, List.getElem?_append] at hi
    split_ifs at hi with hj hflushed
    · rw [List.getElem?_map] at hi
      obtain ⟨ee', hee', heq⟩ := Option.map_eq_some_iff.mp hi
      cases heq
      exact .inr (.inl ⟨j, rfl, hee', rfl⟩)
    · rw [List.length_map] at hj hi
      obtain ⟨m, rfl⟩ := Nat.exists_eq_add_of_le (not_lt.mp hj)
      rw [Nat.add_sub_cancel_left, List.getElem?_map] at hi
      obtain ⟨elem, _, heq⟩ := Option.map_eq_some_iff.mp hi
      cases heq
      exact .inr (.inr ⟨hflushed, rfl, m, by omega⟩)
    · exact nomatch hi

/-- A cycle keeps what is known of the accesses; when it flushes, none is pending. -/
theorem TracksAccesses.cycleTraced {dep : StateDep} {T T' : AccessTrace} {log : CycleLog}
    (haccepts : AcceptedOnce P) (hs : HoldsTags s l none)
    (hfetch : FetchesUntil P s.instructionQueue.stallFetch (flight s l))
    (h : TracksAccesses P dep.addrInfo s l T.removed.length T.events)
    (hT : Accomplished P dep.addrInfo T) (ht : CycleTraced P M dep s T t T' log) :
    ∃ l', TracksAccesses P dep.addrInfo t l' T'.removed.length T'.events ∧ HoldsTags t l' none ∧
      Accomplished P dep.addrInfo T' ∧
      (log.flushed = true → ∀ fu ∈ t.funcUnits, fu.pendingAccesses.entries = []) := by
  cases ht with
  | stalls =>
    exact ⟨l, h.congr ⟨rfl, rfl, rfl⟩ rfl, hs.congr ⟨rfl, rfl, rfl⟩ rfl, hT, fun h => nomatch h⟩
  | @runs memory memory' u v w fetched tempFi flushed events _ _ hu hv hw _ =>
    have hstarted : HoldsTags (OutOfOrderPipelineState.started s memory) l none :=
      hs.congr ⟨rfl, rfl, rfl⟩ rfl
    have htracks : TracksAccesses P dep.addrInfo (OutOfOrderPipelineState.started s memory) l
        T.removed.length T.events := h.congr ⟨rfl, rfl, rfl⟩ rfl
    obtain ⟨hcycle, htracks, hkept⟩ := htracks.unitsTraced hstarted hu
    obtain ⟨hunits, _, hqueue⟩ := hstarted.unitsCycle hcycle
    have hqueue : u.instructionQueue = s.instructionQueue := hqueue
    have hflight : flight u l = flight s l := by
      unfold flight
      rw [hqueue]
    rw [← hflight, ← hqueue] at hfetch
    obtain ⟨l', hv', htv, hplain, hperforms, hquiet⟩ :=
      htracks.components haccepts hunits hfetch hv
    obtain ⟨memory₂, hcloses⟩ := closes_eq (P := P) (M := M) { w with memory := memory' } tempFi
    rw [hcloses]
    have hold {i : ℕ} {ee : ExecutionElement} {fate : Fate}
        (hi : T.removed[i]? = some (ee, fate)) : events i = T.events i :=
      hkept i (List.getElem?_eq_some_iff.mp hi).1
    have hcommitted (i : ℕ) (ee : ExecutionElement)
        (hi : (T.removed ++ leaving tempFi v.reOrderBuffer flushed)[i]? = some (ee, .committed)) :
        Performs P dep.addrInfo ee (events i) := by
      rcases leaving_cases hi with hi | ⟨j, rfl, hj, _⟩ | ⟨_, hfate, _⟩
      · rw [hold hi]
        exact hT.committed i ee hi
      · exact hperforms j ee hj
      · exact nomatch hfate
    rcases handles_cases hv' hplain hw with ⟨rfl, hsame, hunits', _⟩ | ⟨rfl, hempty, front, ee,
      hlast, hee⟩
    · refine ⟨l', ?_, (hv'.congr hsame hunits').congr ⟨rfl, rfl, rfl⟩ rfl, ⟨hcommitted,
        fun i ee hi => ?_⟩, fun h => nomatch h⟩
      · rw [length_leaving, if_neg Bool.false_ne_true, Nat.add_zero]
        exact (htv.congr hsame hunits').congr ⟨rfl, rfl, rfl⟩ rfl
      · rcases leaving_cases hi with hi | ⟨_, _, _, hfate⟩ | ⟨hflag, _⟩
        · exact (hold hi).trans (hT.flushed i ee hi)
        · exact nomatch hfate
        · exact nomatch hflag
    · have hnone := hquiet front ee hlast hee
      have hpending := htv.entries_eq_nil hnone
      have hunits' := funcUnits_of_handles hplain hw rfl
      have hflushed (i : ℕ) (ee : ExecutionElement)
          (hi : (T.removed ++ leaving tempFi v.reOrderBuffer true)[i]? = some (ee, .flushed)) :
          events i = [] := by
        rcases leaving_cases hi with hi | ⟨_, _, _, hfate⟩ | ⟨_, _, j, rfl⟩
        · exact (hold hi).trans (hT.flushed i ee hi)
        · exact nomatch hfate
        · exact hnone j
      refine ⟨[], ?_, hempty.holdsTags.congr ⟨rfl, rfl, rfl⟩ rfl, ⟨hcommitted, hflushed⟩,
        fun _ => ?_⟩
      · have hempty' : TracksAccesses P dep.addrInfo w []
            (T.removed ++ leaving tempFi v.reOrderBuffer true).length events := by
          apply TracksAccesses.flush _ htv.started hpending hunits'
          intro k
          rw [length_leaving, Nat.add_assoc]
          exact hnone _
        exact hempty'.congr ⟨rfl, rfl, rfl⟩ rfl
      · intro fu hfu
        have hfu : fu ∈ v.funcUnits.map FunctionalUnit.flush := hunits' ▸ hfu
        obtain ⟨fu₀, hfu₀, rfl⟩ := List.mem_map.mp hfu
        rw [(pendingAccesses_flush fu₀).2]
        exact hpending fu₀ hfu₀

end Cycle

/-- The data accesses in a run with what was observed in it. -/
structure DataAccesses (addrInfo : AddressInformation) (s : OutOfOrderPipelineState μ)
    (T : AccessTrace) : Prop where
  /-- no access was started behind an unresolved conditional branch, call or return -/
  resolved : ∀ i access, .started access false ∉ T.events i
  /-- no access is pending when the pipeline is flushed, which forgets none -/
  undisturbed : ∀ ins2ctx t T' log, CycleTraced P M ⟨ins2ctx, addrInfo⟩ s T t T' log →
    log.flushed = true → ∀ fu ∈ t.funcUnits, fu.pendingAccesses.entries = []
  /-- no access of a flushed instruction was started -/
  flushed : ∀ (i : ℕ) (ee : ExecutionElement), T.removed[i]? = some (ee, .flushed) →
    T.events i = []
  /-- a committed load or store has performed its accesses one after the other -/
  committed : ∀ (i : ℕ) (ee : ExecutionElement) (mi : MachineInstr),
    T.removed[i]? = some (ee, .committed) → P.getMachineInstrByAddr ee.1 = some mi →
      (mi.mayLoad || mi.mayStore) = true →
        T.events i = performed (addrInfo.getNumOfDataAccesses ee.1)

variable {P M} {addrInfo : AddressInformation} {s : OutOfOrderPipelineState μ} {T : AccessTrace}

theorem tracksAccesses_new {progloc : ExecutionElement} (h : new M progloc = .ok s) :
    TracksAccesses P addrInfo s [] 0 fun _ => [] := by
  obtain ⟨id, memory, _, rfl⟩ := startAccess_eq_ok h
  have hidle : ∀ fu ∈ initialUnits, accessingTag fu = none ∧ fu.pendingAccesses.entries = [] := by
    decide
  exact ⟨fun _ _ => rfl, fun _ _ => rfl, (fun k elem hk => nomatch hk),
    fun fu hfu => .inl (hidle fu hfu), fun k hk => absurd rfl hk, (fun k access hmem => nomatch hmem)⟩

/-- In every run the accesses of the instructions in the reorder buffer are tracked. -/
theorem tracksAccesses_of_run (haccepts : AcceptedOnce P) (h : RunTraced P M addrInfo s T) :
    ∃ l, TracksAccesses P addrInfo s l T.removed.length T.events ∧ HoldsTags s l none ∧
      FetchesUntil P s.instructionQueue.stallFetch (flight s l) ∧ Accomplished P addrInfo T := by
  have hother {s t : OutOfOrderPipelineState μ} {T : AccessTrace}
      (h : ∃ l, TracksAccesses P addrInfo s l T.removed.length T.events ∧ HoldsTags s l none ∧
        FetchesUntil P s.instructionQueue.stallFetch (flight s l) ∧ Accomplished P addrInfo T)
      (hsame : SameBuffers s t) (hunits : t.funcUnits = s.funcUnits)
      (hqueue : t.instructionQueue = s.instructionQueue) :
      ∃ l, TracksAccesses P addrInfo t l T.removed.length T.events ∧ HoldsTags t l none ∧
        FetchesUntil P t.instructionQueue.stallFetch (flight t l) ∧ Accomplished P addrInfo T := by
    obtain ⟨l, htracks, hs, hfetch, hT⟩ := h
    refine ⟨l, htracks.congr hsame hunits, hs.congr hsame hunits, ?_, hT⟩
    unfold flight at hfetch ⊢
    rwa [hqueue]
  induction h with
  | new hs =>
    refine ⟨[], tracksAccesses_new hs, holdsTags_new hs, ?_, (fun i ee hi => nomatch hi),
      fun i ee hi => nomatch hi⟩
    obtain ⟨id, memory, _, rfl⟩ := startAccess_eq_ok hs
    exact ⟨(fun ee hee => nomatch hee), fun _ ee hee => nomatch hee⟩
  | cycle _ ht ih =>
    obtain ⟨l, htracks, hs, hfetch, hT⟩ := ih
    obtain ⟨l', htracks', hs', hT', _⟩ := htracks.cycleTraced haccepts hs hfetch hT ht
    have hI : PhaseInvariant P fun (_ : OutOfOrderPipelineState μ) _ => True :=
      ⟨fun _ _ => trivial, fun _ _ _ _ _ => trivial, fun _ _ _ _ _ => trivial, fun _ => trivial⟩
    obtain ⟨l₂, hs₂, _, hfetch₂, _⟩ := hs.cycles hI trivial hfetch ht.cycles
    have hsame : l₂ = l' := hs₂.holds.elements_eq.symm.trans hs'.holds.elements_eq
    subst hsame
    exact ⟨l₂, htracks', hs', hfetch₂, hT'⟩
  | isFinal _ ee ih =>
    unfold isFinal
    split_ifs
    · exact ih
    · exact hother ih ⟨rfl, rfl, rfl⟩ rfl rfl
  | resetLocalMetrics _ ih => exact hother ih ⟨rfl, rfl, rfl⟩ rfl rfl
  | useBranchAssumption _ ih => exact hother ih ⟨rfl, rfl, rfl⟩ rfl rfl
  | useReturnAssumption _ ih => exact hother ih ⟨rfl, rfl, rfl⟩ rfl rfl

theorem dataAccesses_of_run (haccepts : AcceptedOnce P) (h : RunTraced P M addrInfo s T) :
    DataAccesses P M addrInfo s T := by
  obtain ⟨l, htracks, hs, hfetch, hT⟩ := tracksAccesses_of_run haccepts h
  refine ⟨htracks.started, fun ins2ctx t T' log ht hflushed => ?_, hT.flushed,
    fun i ee mi hi hmi haccess => hT.committed i ee hi mi hmi haccess⟩
  obtain ⟨_, _, _, _, hpending⟩ := htracks.cycleTraced haccepts hs hfetch hT ht
  exact hpending hflushed

/-- A run that takes the first successor of each state. -/
theorem runTraced_iterate {dep : StateDep} {n : ℕ} (h : RunTraced P M dep.addrInfo s T)
    (hrun : ∀ k < n, hasNthSuccessor (cycle P M dep) 0
      ((nthSuccessor (cycle P M dep) 0)^[k] s) = true) :
    ∃ T', RunTraced P M dep.addrInfo ((nthSuccessor (cycle P M dep) 0)^[n] s) T' := by
  induction n with
  | zero => exact ⟨T, h⟩
  | succ n ih =>
    obtain ⟨T₁, hT₁⟩ := ih fun k hk => hrun k (hk.trans (Nat.lt_succ_self n))
    obtain ⟨log, hlog⟩ := leads_observedCycle (leads_nthSuccessor (hrun n (Nat.lt_succ_self n)))
    obtain ⟨T₂, hT₂⟩ := exists_cycleTraced hlog T₁
    rw [Function.iterate_succ_apply']
    exact ⟨T₂, .cycle hT₁ hT₂⟩

section Loads

/-- A load, a conditional branch and further loads. -/
def loads : Program := { straightLine 1 with
  getMachineInstrByAddr := fun addr =>
    if addr = 4 then some { simpleInstr with isBranch := true, targetMBBs := [0] }
    else if addr < 48 then some { simpleInstr with mayLoad := true }
    else none }

/-- Each instruction has two accesses to unknown addresses. -/
def twoAccesses : StateDep :=
  ⟨fun _ => [⟨[.none]⟩], ⟨fun _ => 2, fun _ _ _ => .getUnknownAddress⟩⟩

theorem acceptedOnce_loads : AcceptedOnce loads := by
  intro addr mi hmi
  dsimp only [loads] at hmi
  split_ifs at hmi
  · cases hmi
    refine ⟨1, rfl, fun k hk => ?_⟩
    match k with
    | 0 => exact nomatch hk
    | 1 => rfl
    | 2 => exact nomatch hk
    | k + 3 => exact nomatch hk
  · cases hmi
    refine ⟨2, rfl, fun k hk => ?_⟩
    match k with
    | 0 => exact nomatch hk
    | 1 => exact nomatch hk
    | 2 => rfl
    | k + 3 => exact nomatch hk

/-- When two loads and the branch between them are committed. -/
theorem dataAccesses_loads :
    ∃ T, DataAccesses loads oneCycleTopology twoAccesses.addrInfo
      ((nthSuccessor (cycle loads oneCycleTopology twoAccesses) 0)^[9] straightLineStart) T := by
  have hnew : new oneCycleTopology (0, ⟨[.none]⟩) = .ok straightLineStart := rfl
  obtain ⟨T, hT⟩ := runTraced_iterate (P := loads) (n := 9) (.new hnew)
    (show ∀ k < 9, hasNthSuccessor (cycle loads oneCycleTopology twoAccesses) 0
      ((nthSuccessor (cycle loads oneCycleTopology twoAccesses) 0)^[k] straightLineStart) = true by
        decide +kernel)
  exact ⟨T, dataAccesses_of_run acceptedOnce_loads hT⟩

end Loads

end OutOfOrderPipelineState

end Llvmta.MicroArch
