import Llvmta.MicroarchitecturalAnalysis.OutOfOrderPipelineComponents.ReOrderBuffer

/-!
# Functional units

A simple unit executes one instruction for one of the times its opcode may take, the
branch unit finishes at once, and the unit for loads and stores performs the accesses of an
instruction one after the other. A finished instruction stays in its unit until the common
data bus is free.
-/

namespace Llvmta.MicroArch

open Checked

/-- An instruction, the time it has been executed, and the times at which it may finish. -/
structure Execution where
  robTag : RobTag
  timeExecuted : ℕ
  finishTimes : List ℕ
  deriving DecidableEq, Repr

/-- What the kinds of units have beside the common part. -/
inductive DerivedUnit where
  | simple (executingInstruction : Option Execution)
  | branch
  | loadStore (executingInstruction : Option RobTag) (currMemoryAccess : ℕ)
    (dataAccessIds : OrderedMap ℕ ℕ)
  deriving DecidableEq, Repr

structure FunctionalUnit where
  finishedInstruction : Option RobTag
  derived : DerivedUnit
  deriving DecidableEq, Repr

namespace FunctionalUnit

variable (P : Program) {μ : Type} (M : MemoryTopology μ)

def newSimple : FunctionalUnit := ⟨none, .simple none⟩

def newBranch : FunctionalUnit := ⟨none, .branch⟩

def newLoadStore : FunctionalUnit := ⟨none, .loadStore none 0 .empty⟩

def canExecuteInstruction (fu : FunctionalUnit) (mi : MachineInstr) : Bool :=
  match fu.derived with
  | .simple _ => !(mi.isBranch || mi.isCall || mi.isReturn || mi.mayLoad || mi.mayStore)
  | .branch => (mi.isBranch || mi.isCall || mi.isReturn) && !mi.mayLoad
  | .loadStore _ _ _ => mi.mayLoad || mi.mayStore

def isFree (fu : FunctionalUnit) : Bool :=
  fu.finishedInstruction.isNone &&
    match fu.derived with
    | .simple executingInstruction => executingInstruction.isNone
    | .branch => true
    | .loadStore executingInstruction _ _ => executingInstruction.isNone

def executeInstruction (fu : FunctionalUnit) (rob : ReOrderBuffer) (robTag : RobTag) :
    Except Fault FunctionalUnit := do
  assertThat fu.isFree "Functional Unit was not free!"
  match fu.derived with
  | .simple _ => do
    let ee ← rob.getExecutionElementForRobTag robTag
    let mi ← P.instrAt ee.1
    match P.instructionExecutionTimes mi.getOpcode with
    | some finishTimes => .ok { fu with derived := .simple (some ⟨robTag, 0, finishTimes⟩) }
    | none => .error (.assertion "No execution times found for instruction.")
  | .branch => .ok { fu with finishedInstruction := some robTag }
  | .loadStore _ _ dataAccessIds => .ok { fu with derived := .loadStore (some robTag) 0 dataAccessIds }

/-- The instruction finishes at the lowest of the times that are left, and goes on if
there are others. -/
def cycleSimple (fu : FunctionalUnit) (execution : Execution) :
    Except Fault (List FunctionalUnit) :=
  let timeExecuted := execution.timeExecuted + 1
  match execution.finishTimes with
  | [] => .error .outOfBounds
  | lowestTime :: finishTimes =>
    if lowestTime = timeExecuted then
      let finished := ⟨some execution.robTag, .simple none⟩
      match finishTimes with
      | [] => .ok [finished]
      | nextTime :: _ => do
        assertThat (decide (timeExecuted < nextTime))
          "Multiple identical finish times for instruction."
        .ok [{ fu with derived := .simple (some { execution with timeExecuted, finishTimes }) },
          finished]
    else .ok [{ fu with derived := .simple (some { execution with timeExecuted }) }]

/-- Asks the memory for all accesses; those that are finished are forgotten. -/
def pollAccesses (memory : μ) : List (ℕ × ℕ) → OrderedMap ℕ ℕ → μ × OrderedMap ℕ ℕ
  | [], dataAccessIds => (memory, dataAccessIds)
  | access :: accesses, dataAccessIds =>
    let (finished, memory) := M.finishedDataAccess memory access.2
    pollAccesses memory accesses
      (if finished then dataAccessIds.erase access.1 else dataAccessIds)

/-- The next access of the instruction, or its end after the last one. -/
def nextAccess (fu : FunctionalUnit) (addrInfo : AddressInformation) (memory : μ)
    (robTag : RobTag) (currMemoryAccess : ℕ) (dataAccessIds : OrderedMap ℕ ℕ)
    (execElem : ExecutionElement) (currInstr : MachineInstr) :
    Except Fault (FunctionalUnit × μ) := do
  if currMemoryAccess < addrInfo.getNumOfDataAccesses execElem.1 then
    let accessType := if currInstr.mayLoad then .load else .store
    let addr := addrInfo.getDataAccessAddress execElem.1 execElem.2 currMemoryAccess
    match ← M.accessData memory addr accessType 1 with
    | (none, _) =>
      .error (.assertion "Data access could not be processed by the memory topology!")
    | (some dataAccess, memory) =>
      let dataAccessIds := dataAccessIds.insert currMemoryAccess dataAccess
      .ok ({ fu with derived := .loadStore (some robTag) (currMemoryAccess + 1) dataAccessIds },
        memory)
  else .ok (⟨some robTag, .loadStore none 0 dataAccessIds⟩, memory)

/-- No access is made while one is pending or before the branches in front are resolved. -/
def cycleLoadStore (fu : FunctionalUnit) (rob : ReOrderBuffer) (addrInfo : AddressInformation)
    (memory : μ) (robTag : RobTag) (currMemoryAccess : ℕ) (dataAccessIds : OrderedMap ℕ ℕ) :
    Except Fault (FunctionalUnit × μ) := do
  let execElem ← rob.getExecutionElementForRobTag robTag
  let currInstr ← P.instrAt execElem.1
  let (memory, dataAccessIds) := pollAccesses M memory dataAccessIds.entries dataAccessIds
  let waiting : FunctionalUnit × μ :=
    ({ fu with derived := .loadStore (some robTag) currMemoryAccess dataAccessIds }, memory)
  if dataAccessIds.entries = [] then
    if ← rob.isUnresolvedBranchBefore P robTag then .ok waiting
    else nextAccess M fu addrInfo memory robTag currMemoryAccess dataAccessIds execElem currInstr
  else .ok waiting

/-- The units that may result, with the memory. -/
def cycle (fu : FunctionalUnit) (rob : ReOrderBuffer) (addrInfo : AddressInformation)
    (memory : μ) : Except Fault (List (FunctionalUnit × μ)) := do
  match fu.derived with
  | .simple (some execution) => .ok ((← cycleSimple fu execution).map (·, memory))
  | .loadStore (some robTag) currMemoryAccess dataAccessIds =>
    .ok [← cycleLoadStore P M fu rob addrInfo memory robTag currMemoryAccess dataAccessIds]
  | _ => .ok [(fu, memory)]

/-- Accesses of a flushed instruction are not forgotten. -/
def flush (fu : FunctionalUnit) : FunctionalUnit :=
  match fu.derived with
  | .simple _ => ⟨none, .simple none⟩
  | .branch => ⟨none, .branch⟩
  | .loadStore _ _ dataAccessIds => ⟨none, .loadStore none 0 dataAccessIds⟩

def getExecutingRobTags (fu : FunctionalUnit) : List RobTag :=
  match fu.derived with
  | .simple executingInstruction =>
    (executingInstruction.map Execution.robTag).toList ++ fu.finishedInstruction.toList
  | .branch => fu.finishedInstruction.toList
  | .loadStore executingInstruction _ _ =>
    executingInstruction.toList ++ fu.finishedInstruction.toList

/-- The tags are compared relative to the heads of the reorder buffers. -/
def equals (fu : FunctionalUnit) (rob : ReOrderBuffer) (fu' : FunctionalUnit)
    (rob' : ReOrderBuffer) : Bool :=
  fu.finishedInstruction.map rob.getRelativeToHead ==
      fu'.finishedInstruction.map rob'.getRelativeToHead &&
    match fu.derived, fu'.derived with
    | .simple e, .simple e' =>
      e.map (fun e => (rob.getRelativeToHead e.robTag, e.timeExecuted, e.finishTimes)) ==
        e'.map (fun e => (rob'.getRelativeToHead e.robTag, e.timeExecuted, e.finishTimes))
    | .branch, .branch => true
    | .loadStore e currMemoryAccess dataAccessIds, .loadStore e' currMemoryAccess'
        dataAccessIds' =>
      e.map rob.getRelativeToHead == e'.map rob'.getRelativeToHead &&
        currMemoryAccess == currMemoryAccess' &&
        dataAccessIds.entries.length == dataAccessIds'.entries.length
    | _, _ => false

/-- The accesses of the unit that are not known to be finished. -/
def pendingAccesses (fu : FunctionalUnit) : OrderedMap ℕ ℕ :=
  match fu.derived with
  | .loadStore _ _ dataAccessIds => dataAccessIds
  | _ => .empty

/-- What a cycle of a unit can do. -/
inductive Cycles (rob : ReOrderBuffer) (addrInfo : AddressInformation) :
    FunctionalUnit → μ → FunctionalUnit → μ → Prop
  | idle {fu : FunctionalUnit} {memory : μ} (hfinished : fu.getExecutingRobTags =
      fu.finishedInstruction.toList) : Cycles rob addrInfo fu memory fu memory
  | executes {finished : Option RobTag} {memory : μ} {e e' : Execution}
    (htag : e'.robTag = e.robTag) : Cycles rob addrInfo ⟨finished, .simple (some e)⟩ memory
      ⟨finished, .simple (some e')⟩ memory
  | finishes {finished : Option RobTag} {memory : μ} {e : Execution} :
    Cycles rob addrInfo ⟨finished, .simple (some e)⟩ memory ⟨some e.robTag, .simple none⟩ memory
  | waits {finished : Option RobTag} {memory memory' : μ} {robTag : RobTag} {curr : ℕ}
    {ids ids' : OrderedMap ℕ ℕ} (hpoll : pollAccesses M memory ids.entries ids = (memory', ids')) :
    Cycles rob addrInfo ⟨finished, .loadStore (some robTag) curr ids⟩ memory
      ⟨finished, .loadStore (some robTag) curr ids'⟩ memory'
  | accesses {finished : Option RobTag} {memory memory' memory'' : μ} {robTag : RobTag}
    {curr id : ℕ} {ids ids' : OrderedMap ℕ ℕ} {addr : AbstractAddress} {accessType : AccessType}
    (hpoll : pollAccesses M memory ids.entries ids = (memory', ids')) (hnone : ids'.entries = [])
    (hbranch : rob.isUnresolvedBranchBefore P robTag = .ok false)
    (haccess : M.accessData memory' addr accessType 1 = .ok (some id, memory''))
    {execElem : ExecutionElement} (helem : rob.getExecutionElementForRobTag robTag = .ok execElem)
    (hcurr : curr < addrInfo.getNumOfDataAccesses execElem.1) :
    Cycles rob addrInfo ⟨finished, .loadStore (some robTag) curr ids⟩ memory
      ⟨finished, .loadStore (some robTag) (curr + 1) (ids'.insert curr id)⟩ memory''
  | completes {finished : Option RobTag} {memory memory' : μ} {robTag : RobTag} {curr : ℕ}
    {ids ids' : OrderedMap ℕ ℕ} (hpoll : pollAccesses M memory ids.entries ids = (memory', ids'))
    (hnone : ids'.entries = [])
    (hbranch : rob.isUnresolvedBranchBefore P robTag = .ok false)
    {execElem : ExecutionElement} (helem : rob.getExecutionElementForRobTag robTag = .ok execElem)
    (hcurr : addrInfo.getNumOfDataAccesses execElem.1 ≤ curr) :
    Cycles rob addrInfo ⟨finished, .loadStore (some robTag) curr ids⟩ memory
      ⟨some robTag, .loadStore none 0 ids'⟩ memory'

section Spec

variable {P M} {fu fu' : FunctionalUnit} {rob : ReOrderBuffer} {addrInfo : AddressInformation}
  {memory memory' : μ}

theorem cycles_of_cycleSimple {finished : Option RobTag} {execution : Execution}
    {results : List FunctionalUnit}
    (h : cycleSimple ⟨finished, .simple (some execution)⟩ execution = .ok results)
    (hfu : fu' ∈ results) : Cycles P M rob addrInfo ⟨finished, .simple (some execution)⟩ memory
      fu' memory := by
  unfold cycleSimple at h
  dsimp only at h
  split at h
  · cases h
  · split at h
    · split at h
      · cases h
        cases List.mem_singleton.mp hfu
        exact .finishes
      · obtain ⟨_, _, h⟩ := bind_eq_ok.mp h
        cases h
        simp only [List.mem_cons, List.not_mem_nil, or_false] at hfu
        rcases hfu with rfl | rfl
        · exact .executes rfl
        · exact .finishes
    · cases h
      cases List.mem_singleton.mp hfu
      exact .executes rfl

theorem cycles_of_cycleLoadStore {finished : Option RobTag} {robTag : RobTag} {curr : ℕ}
    {ids : OrderedMap ℕ ℕ}
    (h : cycleLoadStore P M ⟨finished, .loadStore (some robTag) curr ids⟩ rob addrInfo memory
      robTag curr ids = .ok (fu', memory')) :
    Cycles P M rob addrInfo ⟨finished, .loadStore (some robTag) curr ids⟩ memory fu' memory' := by
  obtain ⟨execElem, helem, h⟩ := bind_eq_ok.mp h
  obtain ⟨currInstr, _, h⟩ := bind_eq_ok.mp h
  cases hpoll : pollAccesses M memory ids.entries ids with
  | mk polled ids' =>
    rw [hpoll] at h
    dsimp only at h
    split at h
    · next hnone =>
      obtain ⟨unresolved, hbranch, h⟩ := bind_eq_ok.mp h
      cases unresolved with
      | true =>
        cases h
        exact .waits hpoll
      | false =>
        simp only [nextAccess, Bool.false_eq_true, if_false] at h
        split at h
        · next hcurr =>
          obtain ⟨⟨access, accessed⟩, haccess, h⟩ := bind_eq_ok.mp h
          cases access with
          | none => cases h
          | some id =>
            cases h
            exact .accesses hpoll hnone hbranch haccess helem hcurr
        · next hcurr =>
          cases h
          exact .completes hpoll hnone hbranch helem (not_lt.mp hcurr)
    · cases h
      exact .waits hpoll

theorem cycles_of_cycle {results : List (FunctionalUnit × μ)}
    (h : fu.cycle P M rob addrInfo memory = .ok results) (hfu : (fu', memory') ∈ results) :
    Cycles P M rob addrInfo fu memory fu' memory' := by
  obtain ⟨finished, derived⟩ := fu
  cases derived with
  | simple executing =>
    cases executing with
    | none =>
      cases h
      cases List.mem_singleton.mp hfu
      exact .idle rfl
    | some execution =>
      obtain ⟨units, hunits, h⟩ := bind_eq_ok.mp h
      cases h
      obtain ⟨unit, hunit, heq⟩ := List.mem_map.mp hfu
      cases heq
      exact cycles_of_cycleSimple hunits hunit
  | branch =>
    cases h
    cases List.mem_singleton.mp hfu
    exact .idle rfl
  | loadStore executing curr ids =>
    cases executing with
    | none =>
      cases h
      cases List.mem_singleton.mp hfu
      exact .idle rfl
    | some robTag =>
      obtain ⟨result, hresult, h⟩ := bind_eq_ok.mp h
      cases h
      cases List.mem_singleton.mp hfu
      exact cycles_of_cycleLoadStore hresult

/-- A unit keeps its instruction until it puts it onto the bus, and stays of its kind. -/
theorem Cycles.getExecutingRobTags_eq (hcycle : Cycles P M rob addrInfo fu memory fu' memory')
    (h : fu.getExecutingRobTags.length ≤ 1) : fu'.getExecutingRobTags = fu.getExecutingRobTags ∧
      fu'.canExecuteInstruction = fu.canExecuteInstruction := by
  have hfree {finished : Option RobTag} {tag : RobTag}
      (h : ([tag] ++ finished.toList).length ≤ 1) : finished = none := by
    cases finished with
    | none => rfl
    | some _ => exact absurd h (by simp)
  cases hcycle with
  | idle => exact ⟨rfl, rfl⟩
  | executes htag => exact ⟨by simp [getExecutingRobTags, htag], rfl⟩
  | finishes =>
    cases hfree h
    exact ⟨rfl, rfl⟩
  | waits => exact ⟨rfl, rfl⟩
  | accesses => exact ⟨rfl, rfl⟩
  | completes =>
    cases hfree h
    exact ⟨rfl, rfl⟩

theorem getExecutingRobTags_of_isFree (h : fu.isFree = true) : fu.getExecutingRobTags = [] := by
  obtain ⟨finished, derived⟩ := fu
  cases derived <;> simp_all [isFree, getExecutingRobTags]

/-- A free unit takes the instruction. -/
theorem executeInstruction_eq_ok {robTag : RobTag}
    (h : fu.executeInstruction P rob robTag = .ok fu') :
    fu'.getExecutingRobTags = [robTag] ∧ fu'.canExecuteInstruction = fu.canExecuteInstruction := by
  obtain ⟨finished, derived⟩ := fu
  obtain ⟨_, hfree, h⟩ := bind_eq_ok.mp h
  have hfree : (FunctionalUnit.mk finished derived).isFree = true := of_assertThat hfree
  have hnone : finished = none := by
    cases finished with
    | none => rfl
    | some _ => cases hfree
  subst hnone
  cases derived with
  | simple executing =>
    obtain ⟨ee, _, h⟩ := bind_eq_ok.mp h
    obtain ⟨mi, _, h⟩ := bind_eq_ok.mp h
    split at h
    · cases h
      exact ⟨rfl, rfl⟩
    · cases h
  | branch =>
    cases h
    exact ⟨rfl, rfl⟩
  | loadStore executing curr ids =>
    cases h
    exact ⟨rfl, rfl⟩

/-- A flushed unit holds nothing. -/
theorem flush_eq (fu : FunctionalUnit) : fu.flush.getExecutingRobTags = [] ∧
    fu.flush.canExecuteInstruction = fu.canExecuteInstruction := by
  obtain ⟨finished, derived⟩ := fu
  cases derived <;> exact ⟨rfl, rfl⟩

/-- What polling preserves. -/
theorem pollAccesses_invariant {I : μ → Prop} {accesses : List (ℕ × ℕ)} (ids : OrderedMap ℕ ℕ)
    (hpoll : ∀ m, ∀ access ∈ accesses, I m → I (M.finishedDataAccess m access.2).2)
    (h : I memory) : I (pollAccesses M memory accesses ids).1 := by
  induction accesses generalizing memory ids with
  | nil => exact h
  | cons access accesses ih =>
    apply ih _ fun m access' hmem => hpoll m access' (List.mem_cons_of_mem access hmem)
    exact hpoll memory access List.mem_cons_self h

/-- What the cycle of a unit preserves of the memory. -/
theorem Cycles.memory_invariant {I : μ → Prop} (hcycle : Cycles P M rob addrInfo fu memory fu' memory')
    (hpoll : ∀ m, ∀ access ∈ fu.pendingAccesses.entries, I m →
      I (M.finishedDataAccess m access.2).2)
    (haccess : ∀ m addr accessType id m', I m → M.accessData m addr accessType 1 = .ok (id, m') →
      I m')
    (h : I memory) : I memory' := by
  have hpolled {finished executing curr} {ids ids' : OrderedMap ℕ ℕ} {memory' : μ}
      (hfu : fu = ⟨finished, .loadStore executing curr ids⟩)
      (heq : pollAccesses M memory ids.entries ids = (memory', ids')) : I memory' := by
    subst hfu
    have hinv := pollAccesses_invariant ids hpoll h
    rwa [show (FunctionalUnit.mk finished (.loadStore executing curr ids)).pendingAccesses = ids
      from rfl, heq] at hinv
  cases hcycle with
  | idle => exact h
  | executes => exact h
  | finishes => exact h
  | waits heq => exact hpolled rfl heq
  | accesses heq _ _ haccess' => exact haccess _ _ _ _ _ (hpolled rfl heq) haccess'
  | completes heq => exact hpolled rfl heq

end Spec

end FunctionalUnit

end Llvmta.MicroArch
