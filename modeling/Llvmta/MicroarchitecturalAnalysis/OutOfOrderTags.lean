import Llvmta.MicroarchitecturalAnalysis.OutOfOrderCycles

/-!
# The tags of the out-of-order pipeline

Each instruction that is being executed is held by one reservation station or functional
unit, or stands on the common data bus before the reorder buffer has seen it there. Each
phase of a cycle hands the tags on.
-/

namespace Llvmta.MicroArch.OutOfOrderPipelineState

open Checked ReservationStation

variable {P : Program} {μ : Type} {M : MemoryTopology μ} {s s' t : OutOfOrderPipelineState μ}
  {l : List ReOrderBufferElement} {bus : Option RobTag}

/-- The elements stand in the reorder buffer; each one that is being executed is held once,
and nothing else is held. Units and stations are those of the pipeline. -/
structure HoldsTags (s : OutOfOrderPipelineState μ) (l : List ReOrderBufferElement)
    (bus : Option RobTag) : Prop where
  holds : s.reOrderBuffer.Holds l
  owned : ∀ tag, s.heldTags.count tag + bus.toList.count tag =
    (s.reOrderBuffer.isExecuting tag).toNat
  units : SameUnits initialUnits s.funcUnits
  stations : s.resStations.map ReservationStation.funcUnits =
    initialStations.map ReservationStation.funcUnits

/-- The states have the same buffers of issued instructions. -/
structure SameBuffers (s t : OutOfOrderPipelineState μ) : Prop where
  regStatTabl : t.regStatTabl = s.regStatTabl
  reOrderBuffer : t.reOrderBuffer = s.reOrderBuffer
  resStations : t.resStations = s.resStations

theorem SameBuffers.refl (s : OutOfOrderPipelineState μ) : SameBuffers s s := ⟨rfl, rfl, rfl⟩

theorem SameBuffers.trans {u : OutOfOrderPipelineState μ} (h : SameBuffers s t)
    (h' : SameBuffers t u) : SameBuffers s u :=
  ⟨h'.regStatTabl.trans h.regStatTabl, h'.reOrderBuffer.trans h.reOrderBuffer,
    h'.resStations.trans h.resStations⟩

theorem heldTags_eq (s : OutOfOrderPipelineState μ) :
    s.heldTags = unitTags s.funcUnits ++ stationTags s.resStations := rfl

theorem HoldsTags.congr (h : HoldsTags s l bus) (hsame : SameBuffers s t)
    (hunits : t.funcUnits = s.funcUnits) : HoldsTags t l bus := by
  refine ⟨?_, ?_, ?_, ?_⟩
  · rw [hsame.reOrderBuffer]
    exact h.holds
  · rw [hsame.reOrderBuffer, heldTags_eq, hsame.resStations, hunits]
    exact h.owned
  · rw [hunits]
    exact h.units
  · rw [hsame.resStations]
    exact h.stations

theorem holdsTags_new {progloc : ExecutionElement} (h : new M progloc = .ok s) :
    HoldsTags s [] none := by
  obtain ⟨id, memory, _, rfl⟩ := startAccess_eq_ok h
  have hsingle : ∀ fu ∈ initialUnits, fu.getExecutingRobTags.length ≤ 1 := by decide
  refine ⟨ReOrderBuffer.holds_new, fun tag => ?_, ⟨hsingle, rfl⟩, rfl⟩
  · have hnone : ReOrderBuffer.new.isExecuting tag ≠ true := by
      intro hexec
      obtain ⟨k, elem, _, hk, _⟩ := ReOrderBuffer.holds_new.isExecuting_iff.mp hexec
      cases hk
    exact (congrArg Bool.toNat (Bool.eq_false_iff.mpr hnone)).symm

/-- A unit keeps its instruction or puts it onto the bus. -/
theorem HoldsTags.cycleFuncUnit {addrInfo : AddressInformation} {i : ℕ}
    (h : HoldsTags s l s.commonDataBus) (ht : Leads (cycleFuncUnit P M addrInfo i) s t) :
    HoldsTags t l t.commonDataBus ∧ SameBuffers s t ∧
      t.instructionQueue = s.instructionQueue := by
  obtain ⟨fu, fu', memory, hfu, hcycle, rfl⟩ := cycleFuncUnit_cases ht
  obtain ⟨htags, hkind⟩ :=
    hcycle.getExecutingRobTags_eq (h.units.single fu (List.mem_of_getElem? hfu))
  have hsingle := h.units.single fu (List.mem_of_getElem? hfu)
  obtain ⟨fu₂, bus, heq, hcases⟩ := broadcast_eq { s with memory } i fu'
  have hcount₂ : (∀ tag, fu₂.getExecutingRobTags.count tag + bus.toList.count tag =
      fu.getExecutingRobTags.count tag + s.commonDataBus.toList.count tag) ∧
      fu₂.getExecutingRobTags.length ≤ 1 ∧
      fu₂.canExecuteInstruction = fu.canExecuteInstruction := by
    obtain ⟨rfl, rfl⟩ | ⟨tag, hfinished, hbus, rfl, rfl⟩ := hcases
    · rw [htags]
      exact ⟨fun _ => rfl, hsingle, hkind⟩
    · have hsplit : fu'.getExecutingRobTags =
          { fu' with finishedInstruction := none }.getExecutingRobTags ++ [tag] := by
        obtain ⟨finished, derived⟩ := fu'
        subst hfinished
        cases derived <;> simp [FunctionalUnit.getExecutingRobTags]
      have hbus : s.commonDataBus = none := hbus
      rw [← htags, hsplit, hbus]
      refine ⟨fun x => ?_, ?_, ?_⟩
      · simp
      · have hlength := congrArg List.length hsplit
        rw [htags, List.length_append, List.length_singleton] at hlength
        omega
      · rw [← hkind]
        rfl
  rw [heq]
  obtain ⟨hcount, hsingle₂, hkind₂⟩ := hcount₂
  refine ⟨⟨h.holds, fun tag => ?_, h.units.set hfu hsingle₂ hkind₂, h.stations⟩,
    ⟨rfl, rfl, rfl⟩, rfl⟩
  have hset := List.count_flatMap_set FunctionalUnit.getExecutingRobTags tag fu₂ hfu
  have howned := h.owned tag
  have htag := hcount tag
  rw [heldTags_eq, List.count_append] at howned ⊢
  simp only [unitTags] at howned ⊢
  omega

theorem HoldsTags.unitsCycle {addrInfo : AddressInformation} {is : List ℕ}
    (h : HoldsTags s l s.commonDataBus) (ht : UnitsCycle P M addrInfo is s t) :
    HoldsTags t l t.commonDataBus ∧ SameBuffers s t ∧
      t.instructionQueue = s.instructionQueue := by
  induction ht with
  | nil => exact ⟨h, .refl _, rfl⟩
  | cons hlead _ ih =>
    obtain ⟨hmiddle, hsame, hqueue⟩ := h.cycleFuncUnit hlead
    obtain ⟨hend, hsame', hqueue'⟩ := ih hmiddle
    exact ⟨hend, hsame.trans hsame', hqueue'.trans hqueue⟩

/-- The stations hand instructions to units, and the reorder buffer takes the one on the bus. -/
theorem HoldsTags.cycleBuffers {funcUnits : List FunctionalUnit}
    {resStations : List ReservationStation} {reOrderBuffer : ReOrderBuffer}
    {regStatTabl : RegisterStatusTable} {tempFi finalInstructions : List ExecutionElement}
    (h : HoldsTags s l s.commonDataBus)
    (hstations : cycleAll P s.reOrderBuffer s.commonDataBus s.funcUnits s.resStations =
      .ok (funcUnits, resStations))
    (hrob : s.reOrderBuffer.cycle P s.regStatTabl s.commonDataBus =
      .ok (reOrderBuffer, regStatTabl, tempFi)) :
    ∃ rest, HoldsTags { s with
      funcUnits, resStations, reOrderBuffer, regStatTabl, finalInstructions } rest none ∧
      l.map ReOrderBufferElement.executionElement =
        tempFi ++ rest.map ReOrderBufferElement.executionElement ∧
      ∀ ee ∈ tempFi.dropLast, ∃ mi,
        P.getMachineInstrByAddr ee.1 = some mi ∧ ReOrderBuffer.endsCommit mi = false := by
  obtain ⟨hsame, hafter, hcount⟩ := cycleAll_eq_ok h.units.single hstations
  obtain ⟨done, rest, heq, hrest, hhead, rfl, hdone, hlast, _⟩ :=
    h.holds.cycle_eq_ok (I := fun _ _ _ => True) (fun _ _ _ _ _ _ => trivial) trivial hrob
  refine ⟨rest, ⟨hrest, fun tag => ?_, h.units.trans hsame, ?_⟩, ?_, hlast⟩
  · have howned := h.owned tag
    have htag := hcount tag
    have hexec := ReOrderBuffer.isExecuting_of_cycle tag h.holds hrest hhead heq hdone
    rw [heldTags_eq, List.count_append] at howned ⊢
    by_cases hbus : s.commonDataBus = some tag
    · have hone : s.commonDataBus.toList.count tag = 1 := by simp [hbus]
      have hnone : reOrderBuffer.isExecuting tag = false :=
        Bool.eq_false_iff.mpr fun h => (hexec.mp h).2 hbus
      have hle := Bool.toNat_le (s.reOrderBuffer.isExecuting tag)
      rw [hnone, Bool.toNat_false]
      dsimp only [Option.toList_none, List.count_nil]
      omega
    · have hzero : s.commonDataBus.toList.count tag = 0 := by
        rw [List.count_eq_zero, Option.mem_toList]
        exact hbus
      have hsame : reOrderBuffer.isExecuting tag = s.reOrderBuffer.isExecuting tag :=
        Bool.eq_iff_iff.mpr (hexec.trans (and_iff_left hbus))
      rw [hsame]
      dsimp only [Option.toList_none, List.count_nil]
      omega
  · exact (map_funcUnits_of_afterCycle hafter).trans h.stations
  · have hmap := congrArg (List.map ReOrderBufferElement.executionElement) heq
    rw [ReOrderBuffer.map_finished _ (fun _ => rfl), List.map_append] at hmap
    exact hmap

/-- The next element of the queue gets the free slot at the tail of the reorder buffer, whose
number waits in the station. -/
structure Issues (s : OutOfOrderPipelineState μ) (ee : ExecutionElement) (k : ℕ)
    (s' : OutOfOrderPipelineState μ) : Prop where
  queue : s.instructionQueue.queue = ee :: s'.instructionQueue.queue
  free : s.reOrderBuffer.rob.get s.reOrderBuffer.robTail = none
  slot : ∃ destRegs, s'.reOrderBuffer.rob =
    s.reOrderBuffer.rob.set s.reOrderBuffer.robTail (some ⟨ee, .execute, destRegs⟩)
  station : ∃ rS sources, s.resStations[k]? = some rS ∧
    s'.resStations = s.resStations.set k { rS with
      reservationStation := rS.reservationStation ++ [⟨s.reOrderBuffer.robTail, false, sources⟩] }
  funcUnits : s'.funcUnits = s.funcUnits

theorem issues_of_issueTo {ee : ExecutionElement} {mi : MachineInstr} {k : ℕ}
    (h : issueTo P s ee mi k = .ok s') : Issues s ee k s' := by
  obtain ⟨rob, rst, robTag, rS, rS', queue, hissue, hrS, hrS', hqueue, rfl⟩ := issueTo_eq_ok h
  obtain ⟨_, hfull, hissue⟩ := bind_eq_ok.mp hissue
  obtain ⟨mi', _, hissue⟩ := bind_eq_ok.mp hissue
  cases hissue
  have hfull : (!s.reOrderBuffer.isFull) = true := of_assertThat hfull
  cases issueInstruction_eq_ok hrS'
  exact ⟨hqueue, by simpa [ReOrderBuffer.isFull] using hfull, ⟨_, rfl⟩, ⟨rS, _, hrS, rfl⟩, rfl⟩

/-- The station holds the tag of the new element. -/
theorem HoldsTags.issueTo {ee : ExecutionElement} {mi : MachineInstr} {k : ℕ}
    (h : HoldsTags s l none) (hissue : issueTo P s ee mi k = .ok s') :
    ∃ elem, elem.executionElement = ee ∧ HoldsTags s' (l ++ [elem]) none ∧
      s.instructionQueue.queue = ee :: s'.instructionQueue.queue := by
  obtain ⟨rob, rst, robTag, rS, rS', queue, hrob, hrS, hrS', hqueue, rfl⟩ := issueTo_eq_ok hissue
  obtain ⟨mi', destRegs, _, hlt, rfl, hhead, hholds, _, _⟩ := h.holds.issueInstruction_eq_ok hrob
  refine ⟨_, rfl, ⟨hholds, fun tag => ?_, h.units, ?_⟩, hqueue⟩
  · cases issueInstruction_eq_ok hrS'
    have hset := List.count_flatMap_set ReservationStation.getExecutingRobTags tag
      { rS with reservationStation := rS.reservationStation ++
        [⟨RingBuffer.slot s.reOrderBuffer.robHead l.length, false, s.sourcesOf mi⟩] } hrS
    have hexec := ReOrderBuffer.isExecuting_of_push tag h.holds hholds hhead rfl
    have howned := h.owned tag
    rw [heldTags_eq, List.count_append] at howned ⊢
    simp only [ReservationStation.getExecutingRobTags, List.map_append, List.count_append,
      List.map_cons, List.map_nil] at hset
    simp only [stationTags, Option.toList_none, List.count_nil, Nat.add_zero] at howned ⊢
    by_cases htag : tag = RingBuffer.slot s.reOrderBuffer.robHead l.length
    · subst htag
      have hnone := h.holds.not_isExecuting_tail hlt
      rw [hexec.mpr (.inr rfl), Bool.toNat_true]
      rw [hnone, Bool.toNat_false] at howned
      rw [List.count_singleton_self] at hset
      omega
    · have hsame : rob.isExecuting tag = s.reOrderBuffer.isExecuting tag :=
        Bool.eq_iff_iff.mpr (hexec.trans (or_iff_left htag))
      rw [hsame]
      rw [List.count_singleton, if_neg (by simpa using Ne.symm htag)] at hset
      omega
  · cases issueInstruction_eq_ok hrS'
    refine Eq.trans (List.map_set_of_eq hrS ?_) h.stations
    rfl

end Llvmta.MicroArch.OutOfOrderPipelineState
