import Llvmta.Library.ListUpdates
import Llvmta.MicroarchitecturalAnalysis.OutOfOrderPipelineComponents.FunctionalUnit

/-!
# Reservation stations

An issued instruction waits in a station for the instructions that produce its operands,
its sources, and then for a free functional unit of the station.
-/

namespace Llvmta.MicroArch

open Checked

/-- The sources are a set, kept as a list without repetitions. -/
structure ReservationStationElement where
  robTag : RobTag
  busy : Bool
  sources : List RobTag
  deriving DecidableEq, Repr

structure ReservationStation where
  resStationSize : ℕ
  reservationStation : List ReservationStationElement
  /-- the numbers of its functional units -/
  funcUnits : List ℕ
  deriving DecidableEq, Repr

namespace ReservationStation

variable (P : Program) (rob : ReOrderBuffer) (cdb : Option RobTag)

def new (size : ℕ) (funcUnits : List ℕ) : ReservationStation := ⟨size, [], funcUnits⟩

def canExecuteInstruction (rS : ReservationStation) (units : List FunctionalUnit)
    (mi : MachineInstr) : Bool :=
  rS.funcUnits.any fun i => units[i]?.any (·.canExecuteInstruction mi)

def isFull (rS : ReservationStation) : Bool :=
  decide (rS.reservationStation.length = rS.resStationSize)

/-- Hands the instruction to the first free unit that can execute it, if there is one. -/
def dispatch (robTag : RobTag) (mi : MachineInstr) :
    List ℕ → List FunctionalUnit → Except Fault (Option (List FunctionalUnit))
  | [], _ => .ok none
  | i :: is, units => do
    let fu ← read units i
    if fu.canExecuteInstruction mi && fu.isFree then
      let fu ← fu.executeInstruction P rob robTag
      .ok (some (units.set i fu))
    else dispatch robTag mi is units

/-- An element that does not wait any longer leaves the station if a unit is free. -/
def cycleElement (funcUnits : List ℕ) (units : List FunctionalUnit)
    (elem : ReservationStationElement) :
    Except Fault (List FunctionalUnit × Option ReservationStationElement) := do
  if elem.busy then .ok (units, some elem)
  else
    let sources := elem.sources.filter fun op => some op ≠ cdb
    if sources = [] then
      let ee ← rob.getExecutionElementForRobTag elem.robTag
      let mi ← P.instrAt ee.1
      match ← dispatch P rob elem.robTag mi funcUnits units with
      | some units => .ok (units, none)
      | none => .ok (units, some { elem with sources })
    else .ok (units, some { elem with sources })

def cycleElements (funcUnits : List ℕ) : List FunctionalUnit → List ReservationStationElement →
    Except Fault (List FunctionalUnit × List ReservationStationElement)
  | units, [] => .ok (units, [])
  | units, elem :: elems => do
    let (units, stays) ← cycleElement P rob cdb funcUnits units elem
    let (units, elems) ← cycleElements funcUnits units elems
    .ok (units, stays.toList ++ elems)

def cycle (units : List FunctionalUnit) (rS : ReservationStation) :
    Except Fault (List FunctionalUnit × ReservationStation) := do
  let (units, reservationStation) ←
    cycleElements P rob cdb rS.funcUnits units rS.reservationStation
  .ok (units, { rS with reservationStation })

/-- All stations one after the other. -/
def cycleAll : List FunctionalUnit → List ReservationStation →
    Except Fault (List FunctionalUnit × List ReservationStation)
  | units, [] => .ok (units, [])
  | units, rS :: resStations => do
    let (units, rS) ← cycle P rob cdb units rS
    let (units, resStations) ← cycleAll units resStations
    .ok (units, rS :: resStations)

def issueInstruction (rS : ReservationStation) (robTag : RobTag) (sources : List RobTag) :
    Except Fault ReservationStation := do
  assertThat (!rS.isFull) "Tried issuing an instruction without prior check. Station is full."
  .ok { rS with reservationStation := rS.reservationStation ++ [⟨robTag, false, sources⟩] }

def flush (rS : ReservationStation) : ReservationStation := { rS with reservationStation := [] }

def getExecutingRobTags (rS : ReservationStation) : List RobTag :=
  rS.reservationStation.map ReservationStationElement.robTag

section Spec

variable {P rob cdb} {units units' : List FunctionalUnit} {tag : RobTag}

/-- The tags that the units hold. -/
def unitTags (units : List FunctionalUnit) : List RobTag :=
  units.flatMap FunctionalUnit.getExecutingRobTags

/-- Units of the same kinds, each of which holds at most one instruction. -/
structure SameUnits (units units' : List FunctionalUnit) : Prop where
  single : ∀ fu ∈ units', fu.getExecutingRobTags.length ≤ 1
  kinds : units'.map FunctionalUnit.canExecuteInstruction =
    units.map FunctionalUnit.canExecuteInstruction

theorem SameUnits.trans {units'' : List FunctionalUnit} (h : SameUnits units units')
    (h' : SameUnits units' units'') : SameUnits units units'' :=
  ⟨h'.single, h'.kinds.trans h.kinds⟩

/-- A unit is replaced by one of its kind. -/
theorem SameUnits.set {i : ℕ} {fu fu' : FunctionalUnit} (h : SameUnits units units')
    (hfu : units'[i]? = some fu) (hsingle : fu'.getExecutingRobTags.length ≤ 1)
    (hkind : fu'.canExecuteInstruction = fu.canExecuteInstruction) :
    SameUnits units (units'.set i fu') := by
  refine ⟨fun unit hunit => ?_, ?_⟩
  · rcases List.mem_or_eq_of_mem_set hunit with hunit | rfl
    · exact h.single unit hunit
    · exact hsingle
  · rw [List.map_set_of_eq hfu hkind, h.kinds]

/-- A unit that was free holds the instruction. -/
theorem dispatch_eq_ok {mi : MachineInstr} {is : List ℕ}
    (hsingle : ∀ fu ∈ units, fu.getExecutingRobTags.length ≤ 1)
    (h : dispatch P rob tag mi is units = .ok (some units')) :
    SameUnits units units' ∧
      ∀ x, (unitTags units').count x = (unitTags units).count x + [tag].count x := by
  induction is with
  | nil => cases h
  | cons i is ih =>
    obtain ⟨fu, hfu, h⟩ := bind_eq_ok.mp h
    have hfu : units[i]? = some fu := getElem?_of_read hfu
    split at h
    · next hfree =>
      obtain ⟨fu', hfu', h⟩ := bind_eq_ok.mp h
      cases h
      obtain ⟨htags, hkind⟩ := FunctionalUnit.executeInstruction_eq_ok hfu'
      have hnone := FunctionalUnit.getExecutingRobTags_of_isFree (Bool.and_eq_true_iff.mp hfree).2
      refine ⟨SameUnits.set ⟨hsingle, rfl⟩ hfu (by simp [htags]) hkind, fun x => ?_⟩
      have hcount := List.count_flatMap_set FunctionalUnit.getExecutingRobTags x fu' hfu
      rw [htags, hnone] at hcount
      simpa [unitTags] using hcount
    · exact ih h

/-- An element that stays only waits for fewer instructions; one that leaves goes to a unit. -/
theorem cycleElement_eq_ok {is : List ℕ} {elem : ReservationStationElement}
    {stays : Option ReservationStationElement}
    (hsingle : ∀ fu ∈ units, fu.getExecutingRobTags.length ≤ 1)
    (h : cycleElement P rob cdb is units elem = .ok (units', stays)) :
    SameUnits units units' ∧
      (stays = none ∧ (∀ x, (unitTags units').count x =
          (unitTags units).count x + [elem.robTag].count x) ∨
        units' = units ∧ (elem.busy = true ∧ stays = some elem ∨ elem.busy = false ∧
          stays = some { elem with sources := elem.sources.filter fun op => some op ≠ cdb })) := by
  unfold cycleElement at h
  split at h
  · next hbusy =>
    cases h
    exact ⟨⟨hsingle, rfl⟩, .inr ⟨rfl, .inl ⟨hbusy, rfl⟩⟩⟩
  · next hbusy =>
    dsimp only at h
    have hbusy : elem.busy = false := Bool.eq_false_iff.mpr hbusy
    split at h
    · obtain ⟨ee, _, h⟩ := bind_eq_ok.mp h
      obtain ⟨mi, _, h⟩ := bind_eq_ok.mp h
      obtain ⟨dispatched, hdispatch, h⟩ := bind_eq_ok.mp h
      cases dispatched with
      | none =>
        cases h
        exact ⟨⟨hsingle, rfl⟩, .inr ⟨rfl, .inr ⟨hbusy, rfl⟩⟩⟩
      | some units'' =>
        cases h
        obtain ⟨hsame, hcount⟩ := dispatch_eq_ok hsingle hdispatch
        exact ⟨hsame, .inl ⟨rfl, hcount⟩⟩
    · cases h
      exact ⟨⟨hsingle, rfl⟩, .inr ⟨rfl, .inr ⟨hbusy, rfl⟩⟩⟩

/-- What stands in a station after its cycle stood in it before and waits no longer for the
instruction on the bus. -/
def StaysIn (cdb : Option RobTag) (elems : List ReservationStationElement)
    (elem' : ReservationStationElement) : Prop :=
  ∃ elem ∈ elems, elem'.robTag = elem.robTag ∧ elem'.busy = elem.busy ∧
    (elem.busy = false → elem'.sources = elem.sources.filter fun op => some op ≠ cdb)

/-- Units and elements exchange their tags. -/
theorem cycleElements_eq_ok {is : List ℕ} {elems elems' : List ReservationStationElement}
    (hsingle : ∀ fu ∈ units, fu.getExecutingRobTags.length ≤ 1)
    (h : cycleElements P rob cdb is units elems = .ok (units', elems')) :
    SameUnits units units' ∧ (∀ elem' ∈ elems', StaysIn cdb elems elem') ∧
      ∀ x, (unitTags units').count x + (elems'.map ReservationStationElement.robTag).count x =
        (unitTags units).count x + (elems.map ReservationStationElement.robTag).count x := by
  induction elems generalizing units units' elems' with
  | nil =>
    cases h
    exact ⟨⟨hsingle, rfl⟩, by simp, fun _ => rfl⟩
  | cons elem elems ih =>
    obtain ⟨⟨middle, stays⟩, helem, h⟩ := bind_eq_ok.mp h
    obtain ⟨⟨units₂, elems₂⟩, helems, h⟩ := bind_eq_ok.mp h
    cases h
    obtain ⟨hsame, hstays⟩ := cycleElement_eq_ok hsingle helem
    obtain ⟨hsame₂, hstays₂, hcount₂⟩ := ih hsame.single helems
    have hlater : ∀ elem' ∈ elems₂, StaysIn cdb (elem :: elems) elem' := by
      intro elem' hmem
      obtain ⟨elem₀, hmem₀, heq⟩ := hstays₂ elem' hmem
      exact ⟨elem₀, List.mem_cons_of_mem elem hmem₀, heq⟩
    refine ⟨hsame.trans hsame₂, ?_, fun x => ?_⟩
    · intro elem' hmem
      rcases List.mem_append.mp hmem with hmem | hmem
      · obtain ⟨rfl, _⟩ | ⟨_, ⟨hbusy, rfl⟩ | ⟨hbusy, rfl⟩⟩ := hstays
        · exact nomatch hmem
        · cases List.mem_singleton.mp hmem
          exact ⟨elem, List.mem_cons_self, rfl, rfl, fun h => nomatch h.symm.trans hbusy⟩
        · cases List.mem_singleton.mp hmem
          exact ⟨elem, List.mem_cons_self, rfl, rfl, fun _ => rfl⟩
      · exact hlater elem' hmem
    · have hx := hcount₂ x
      rw [List.map_cons, ← List.singleton_append, List.count_append, List.map_append,
        List.count_append]
      obtain ⟨rfl, hcount⟩ | ⟨rfl, hstays⟩ := hstays
      · have hx' := hcount x
        simp only [Option.toList_none, List.map_nil, List.count_nil]
        omega
      · have htag : (stays.toList.map ReservationStationElement.robTag) = [elem.robTag] := by
          obtain ⟨_, rfl⟩ | ⟨_, rfl⟩ := hstays <;> rfl
        rw [htag]
        omega

/-- The tags that the stations hold. -/
def stationTags (resStations : List ReservationStation) : List RobTag :=
  resStations.flatMap getExecutingRobTags

/-- A station after its cycle is the one at its place, with what stays in it. -/
def AfterCycle (cdb : Option RobTag) (rS rS' : ReservationStation) : Prop :=
  rS'.funcUnits = rS.funcUnits ∧
    ∀ elem' ∈ rS'.reservationStation, StaysIn cdb rS.reservationStation elem'

@[simp] theorem unitTags_flush (units : List FunctionalUnit) :
    unitTags (units.map FunctionalUnit.flush) = [] := by
  unfold unitTags
  rw [List.flatMap_map]
  exact List.flatMap_eq_nil_iff.mpr fun fu _ => (FunctionalUnit.flush_eq fu).1

@[simp] theorem stationTags_flush (resStations : List ReservationStation) :
    stationTags (resStations.map ReservationStation.flush) = [] := by
  unfold stationTags
  rw [List.flatMap_map]
  exact List.flatMap_eq_nil_iff.mpr fun rS _ => rfl

theorem map_funcUnits_of_afterCycle {resStations resStations' : List ReservationStation}
    (h : List.Forall₂ (AfterCycle cdb) resStations resStations') :
    resStations'.map ReservationStation.funcUnits =
      resStations.map ReservationStation.funcUnits := by
  induction h with
  | nil => rfl
  | cons hafter _ ih => rw [List.map_cons, List.map_cons, hafter.1, ih]

theorem exists_of_afterCycle {resStations resStations' : List ReservationStation}
    (h : List.Forall₂ (AfterCycle cdb) resStations resStations') {rS' : ReservationStation}
    (hrS' : rS' ∈ resStations') : ∃ rS ∈ resStations, AfterCycle cdb rS rS' := by
  induction h with
  | nil => exact nomatch hrS'
  | cons hafter _ ih =>
    rcases List.mem_cons.mp hrS' with rfl | hrS'
    · exact ⟨_, List.mem_cons_self, hafter⟩
    · obtain ⟨rS, hrS, hafter'⟩ := ih hrS'
      exact ⟨rS, List.mem_cons_of_mem _ hrS, hafter'⟩

theorem cycleAll_eq_ok {resStations resStations' : List ReservationStation}
    (hsingle : ∀ fu ∈ units, fu.getExecutingRobTags.length ≤ 1)
    (h : cycleAll P rob cdb units resStations = .ok (units', resStations')) :
    SameUnits units units' ∧ List.Forall₂ (AfterCycle cdb) resStations resStations' ∧
      ∀ x, (unitTags units').count x + (stationTags resStations').count x =
        (unitTags units).count x + (stationTags resStations).count x := by
  induction resStations generalizing units units' resStations' with
  | nil =>
    cases h
    exact ⟨⟨hsingle, rfl⟩, .nil, fun _ => rfl⟩
  | cons rS resStations ih =>
    obtain ⟨⟨middle, rS₂⟩, hcycle, h⟩ := bind_eq_ok.mp h
    obtain ⟨⟨units₂, resStations₂⟩, hcycles, h⟩ := bind_eq_ok.mp h
    cases h
    obtain ⟨⟨units₁, elems⟩, helems, hcycle⟩ := bind_eq_ok.mp hcycle
    cases hcycle
    obtain ⟨hsame, hstays, hcount⟩ := cycleElements_eq_ok hsingle helems
    obtain ⟨hsame₂, hafter₂, hcount₂⟩ := ih hsame.single hcycles
    refine ⟨hsame.trans hsame₂, .cons ⟨rfl, hstays⟩ hafter₂, fun x => ?_⟩
    have hx := hcount x
    have hx₂ := hcount₂ x
    simp only [stationTags, List.flatMap_cons, List.count_append, getExecutingRobTags] at hx₂ ⊢
    omega

/-- An instruction goes to a free unit that can execute it. -/
structure Dispatches (P : Program) (rob : ReOrderBuffer) (units : List FunctionalUnit)
    (tag : RobTag) (mi : MachineInstr) (i : ℕ) (fu fu' : FunctionalUnit) : Prop where
  instr : ∃ ee, rob.getExecutionElementForRobTag tag = .ok ee ∧ P.instrAt ee.1 = .ok mi
  unit : units[i]? = some fu
  accepts : fu.canExecuteInstruction mi = true
  free : fu.isFree = true
  executes : fu.executeInstruction P rob tag = .ok fu'

theorem dispatches_of_dispatch {ee : ExecutionElement} {mi : MachineInstr} {is : List ℕ}
    (hee : rob.getExecutionElementForRobTag tag = .ok ee) (hmi : P.instrAt ee.1 = .ok mi)
    (h : dispatch P rob tag mi is units = .ok (some units')) :
    ∃ i fu fu', Dispatches P rob units tag mi i fu fu' ∧ units' = units.set i fu' := by
  induction is with
  | nil => cases h
  | cons i is ih =>
    obtain ⟨fu, hfu, h⟩ := bind_eq_ok.mp h
    split at h
    · next hfree =>
      obtain ⟨fu', hfu', h⟩ := bind_eq_ok.mp h
      cases h
      obtain ⟨haccepts, hfree⟩ := Bool.and_eq_true_iff.mp hfree
      exact ⟨i, fu, fu', ⟨⟨ee, hee, hmi⟩, getElem?_of_read hfu, haccepts, hfree, hfu'⟩, rfl⟩
    · exact ih h

/-- What the dispatch of an instruction preserves of the units is preserved by a station. -/
theorem cycleElements_invariant {I : List FunctionalUnit → Prop} {is : List ℕ}
    {elems elems' : List ReservationStationElement}
    (hdispatch : ∀ units tag mi i fu fu', tag ∈ elems.map ReservationStationElement.robTag →
      Dispatches P rob units tag mi i fu fu' → I units → I (units.set i fu'))
    (hI : I units) (h : cycleElements P rob cdb is units elems = .ok (units', elems')) :
    I units' := by
  induction elems generalizing units units' elems' with
  | nil =>
    cases h
    exact hI
  | cons elem elems ih =>
    obtain ⟨⟨middle, stays⟩, helem, h⟩ := bind_eq_ok.mp h
    obtain ⟨⟨units₂, elems₂⟩, helems, h⟩ := bind_eq_ok.mp h
    cases h
    apply ih (fun units tag mi i fu fu' hmem =>
      hdispatch units tag mi i fu fu' (List.mem_cons_of_mem _ hmem)) _ helems
    unfold cycleElement at helem
    split at helem
    · cases helem
      exact hI
    · dsimp only at helem
      split at helem
      · obtain ⟨ee, hee, helem⟩ := bind_eq_ok.mp helem
        obtain ⟨mi, hmi, helem⟩ := bind_eq_ok.mp helem
        obtain ⟨dispatched, hdispatched, helem⟩ := bind_eq_ok.mp helem
        cases dispatched with
        | none =>
          cases helem
          exact hI
        | some units'' =>
          cases helem
          obtain ⟨i, fu, fu', hunits, rfl⟩ := dispatches_of_dispatch hee hmi hdispatched
          exact hdispatch units _ mi i fu fu' List.mem_cons_self hunits hI
      · cases helem
        exact hI

theorem cycleAll_invariant {I : List FunctionalUnit → Prop}
    {resStations resStations' : List ReservationStation}
    (hdispatch : ∀ units tag mi i fu fu', tag ∈ stationTags resStations →
      Dispatches P rob units tag mi i fu fu' → I units → I (units.set i fu'))
    (hI : I units) (h : cycleAll P rob cdb units resStations = .ok (units', resStations')) :
    I units' := by
  induction resStations generalizing units units' resStations' with
  | nil =>
    cases h
    exact hI
  | cons rS resStations ih =>
    obtain ⟨⟨middle, rS₂⟩, hcycle, h⟩ := bind_eq_ok.mp h
    obtain ⟨⟨units₂, resStations₂⟩, hcycles, h⟩ := bind_eq_ok.mp h
    cases h
    obtain ⟨⟨units₁, elems⟩, helems, hcycle⟩ := bind_eq_ok.mp hcycle
    cases hcycle
    apply ih (fun units tag mi i fu fu' hmem =>
      hdispatch units tag mi i fu fu' (List.mem_append_right _ hmem)) _ hcycles
    exact cycleElements_invariant (fun units tag mi i fu fu' hmem =>
      hdispatch units tag mi i fu fu' (List.mem_append_left _ hmem)) hI helems

theorem issueInstruction_eq_ok {rS rS' : ReservationStation} {sources : List RobTag}
    (h : rS.issueInstruction tag sources = .ok rS') :
    rS' = { rS with reservationStation := rS.reservationStation ++ [⟨tag, false, sources⟩] } := by
  obtain ⟨_, _, h⟩ := bind_eq_ok.mp h
  cases h
  rfl

end Spec

end ReservationStation

/-- The tags are compared relative to the heads of the reorder buffers. -/
def ReservationStationElement.equals (rse : ReservationStationElement) (rob : ReOrderBuffer)
    (rse' : ReservationStationElement) (rob' : ReOrderBuffer) : Bool :=
  rse.busy == rse'.busy && rob.getRelativeToHead rse.robTag == rob'.getRelativeToHead rse'.robTag &&
    rse.sources.length == rse'.sources.length &&
    rse.sources.all fun src =>
      decide (rob.getRelativeToHead src ∈ rse'.sources.map rob'.getRelativeToHead)

def ReservationStation.equals (rS : ReservationStation) (rob : ReOrderBuffer)
    (rS' : ReservationStation) (rob' : ReOrderBuffer) : Bool :=
  rS.reservationStation.length == rS'.reservationStation.length &&
    (rS.reservationStation.zip rS'.reservationStation).all fun e => e.1.equals rob e.2 rob'

end Llvmta.MicroArch
