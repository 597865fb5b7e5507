import Llvmta.Memory.AbstractCyclingMemory
import Llvmta.Memory.MemoryTopologyInterface

/-!
# A topology without caches

`SingleMemoryTopology` puts one queue for instruction and one for data accesses in
front of a cycling memory. An instruction access replaces a waiting one, a data
access is rejected when another one is waiting.
-/

namespace Llvmta

open Checked

/-- The options that concern the topology. -/
structure SingleMemoryOptions where
  /-- `MemTopType == MemoryTopologyType::SEPARATECACHES` -/
  separateCaches : Bool
  ilinesize : ℕ
  dlinesize : ℕ
  enableStrictInorderDataInstrArbitration : Bool
  deriving DecidableEq, Repr

structure SingleMemoryTopology (ν : Type) where
  memory : ν
  instructionQueue : List Access
  dataQueue : List Access
  currentId : ℕ
  currentIdAccessed : ℕ
  finishedAccess : ℕ
  currentIdAccessesInstr : Bool
  waitingForJoin : Bool
  deriving DecidableEq, Repr

namespace SingleMemoryTopology

variable (opts : SingleMemoryOptions) {ν : Type} (M : AbstractCyclingMemory ν)

def new : SingleMemoryTopology ν := ⟨M.new, [], [], 1, 0, 0, false, false⟩

/-- Overrides any preceding access. -/
def accessInstr (m : SingleMemoryTopology ν) (addr numWords : ℕ) :
    Except Fault (Option ℕ × SingleMemoryTopology ν) := do
  assertThat (!opts.separateCaches || numWords == opts.ilinesize / 4)
    "Can only load full cachelines"
  .ok (some m.currentId, { m with
    instructionQueue := m.instructionQueue.tail ++
      [⟨m.currentId, .ofUnsigned addr, .load, numWords⟩]
    currentId := nextId m.currentId })

def accessData (m : SingleMemoryTopology ν) (addr : AbstractAddress) (load_store : AccessType)
    (numWords : ℕ) : Except Fault (Option ℕ × SingleMemoryTopology ν) := do
  assertThat (!opts.separateCaches || load_store != .load || numWords == opts.dlinesize / 4)
    "Can only load full cachelines"
  if m.dataQueue.length = 0 then
    .ok (some m.currentId, { m with
      dataQueue := m.dataQueue ++ [⟨m.currentId, addr, load_store, numWords⟩]
      currentId := nextId m.currentId })
  else .ok (none, m)

def accessMemory (m : SingleMemoryTopology ν) (accessElement : Access) :
    Except Fault (List (SingleMemoryTopology ν)) := do
  let announced ←
    M.announceAccess m.memory accessElement.addr accessElement.load_store accessElement.numWords
  .ok (announced.map fun memory => { m with currentIdAccessed := accessElement.id, memory })

def finishAccess (m : SingleMemoryTopology ν) : SingleMemoryTopology ν :=
  { m with finishedAccess := m.currentIdAccessed, waitingForJoin := true, currentIdAccessed := 0 }

/-- Gets the next element from the queues, data accesses first, unless something is
being accessed. -/
def startAccess (potentialDataMissesPending : Bool) (m : SingleMemoryTopology ν) :
    Except Fault (List (SingleMemoryTopology ν)) := do
  if m.currentIdAccessed = 0 then
    match m.dataQueue, m.instructionQueue with
    | front :: _, _ =>
      let res ← accessMemory M m front
      .ok (res.map fun r =>
        { r with dataQueue := r.dataQueue.tail, currentIdAccessesInstr := false })
    | [], front :: _ =>
      if !opts.enableStrictInorderDataInstrArbitration || !potentialDataMissesPending then
        assertThat (!potentialDataMissesPending) "Here we should see a difference"
        let res ← accessMemory M m front
        .ok (res.map fun r =>
          { r with instructionQueue := r.instructionQueue.tail, currentIdAccessesInstr := true })
      else .ok [m]
    | [], [] => .ok [m]
  else .ok [m]

/-- What the topology is after its memory has cycled. -/
def cycled (r : SingleMemoryTopology ν) (memory : ν) : Except Fault (SingleMemoryTopology ν) := do
  let newInst := { r with memory, finishedAccess := 0 }
  let newInst := if 0 < newInst.currentIdAccessed ∧ M.isBusy memory = false then
    newInst.finishAccess else newInst
  assertThat (!(newInst.waitingForJoin && newInst.currentIdAccessed != 0))
    "Should not be waiting for join when something is accessed!"
  .ok newInst

def cycleMemory (r : SingleMemoryTopology ν) : Except Fault (List (SingleMemoryTopology ν)) := do
  let r := { r with waitingForJoin := false }
  forEach (fun memory => do .ok [← cycled M r memory]) (← M.cycle r.memory)

def cycle (potentialDataMissesPending : Bool) (m : SingleMemoryTopology ν) :
    Except Fault (List (SingleMemoryTopology ν)) := do
  forEach (cycleMemory M) (← startAccess opts M potentialDataMissesPending m)

def finishedAccessIs (m : SingleMemoryTopology ν) (id : ℕ) : Bool × SingleMemoryTopology ν :=
  if m.finishedAccess = id then (true, { m with finishedAccess := 0 }) else (false, m)

def isJoinable (m m' : SingleMemoryTopology ν) : Bool :=
  M.isJoinable m.memory m'.memory &&
    areQueuesEqual m.currentId m'.currentId m.instructionQueue m'.instructionQueue &&
    areQueuesEqual m.currentId m'.currentId m.dataQueue m'.dataQueue &&
    areAccessIdsEqual m.currentId m'.currentId m.currentIdAccessed m'.currentIdAccessed &&
    areAccessIdsEqual m.currentId m'.currentId m.finishedAccess m'.finishedAccess

/-- Everything related to identifiers is kept, as it is equal relative to them. -/
def join (m m' : SingleMemoryTopology ν) : Except Fault (SingleMemoryTopology ν) := do
  assertThat (isJoinable M m m') "Cannot join non-joinable topologies."
  let memory ← M.join m.memory m'.memory
  .ok { m with memory, waitingForJoin := m.waitingForJoin || m'.waitingForJoin }

def fastForward (m : SingleMemoryTopology ν) : Except Fault (List (SingleMemoryTopology ν)) := do
  if M.isBusy m.memory then
    assertThat (decide (0 < m.currentIdAccessed)) "currentIdAccessed > 0"
    let forwarded ← M.fastForward m.memory
    .ok (forwarded.map fun memory => { m with memory })
  else .ok [m]

/-- The topology as a memory topology. -/
def topology : MemoryTopologyInterface (SingleMemoryTopology ν) where
  new := new M
  accessInstr := accessInstr opts
  accessData := accessData opts
  cycle := cycle opts M
  shouldPipelineStall := fun m => M.shouldPipelineStall m.memory
  finishedInstrAccess := finishedAccessIs
  finishedDataAccess := finishedAccessIs
  isJoinable := isJoinable M
  join := join M
  fastForward := fastForward M
  resetLocalMetrics := fun m => { m with memory := M.resetLocalMetrics m.memory }

variable {opts M} {m : SingleMemoryTopology ν}

/-- Instruction accesses to full lines are never rejected. -/
theorem accessInstr_accepted {addr : ℕ} :
    ∃ m', (topology opts M).accessInstr m addr (opts.ilinesize / 4) = .ok (some m.currentId, m') :=
  ⟨_, by simp [topology, accessInstr]; rfl⟩

section Data

variable {addr : AbstractAddress} {load_store : AccessType} {numWords : ℕ}

/-- Data accesses of which the loads are those of full lines are taken if none is waiting. -/
theorem accessData_eq (hfull : load_store = .load → numWords = opts.dlinesize / 4) :
    (topology opts M).accessData m addr load_store numWords =
      .ok (if m.dataQueue.length = 0 then
        (some m.currentId, { m with
          dataQueue := m.dataQueue ++ [⟨m.currentId, addr, load_store, numWords⟩]
          currentId := nextId m.currentId })
      else (none, m)) := by
  have hassert : (!opts.separateCaches || load_store != .load || numWords == opts.dlinesize / 4) =
      true := by
    cases load_store with
    | load => simp [hfull rfl]
    | store => simp
  simp only [topology, accessData, assertThat_of hassert, ok_bind]
  split_ifs <;> rfl

theorem accessData_accepted_iff (hfull : load_store = .load → numWords = opts.dlinesize / 4) :
    (∃ id m', (topology opts M).accessData m addr load_store numWords = .ok (some id, m')) ↔
      m.dataQueue = [] := by
  rw [accessData_eq hfull, ← List.length_eq_zero_iff]
  split_ifs with hempty
  · exact ⟨fun _ => hempty, fun _ => ⟨_, _, rfl⟩⟩
  · constructor
    · rintro ⟨_, _, h⟩
      cases h
    · intro h
      exact absurd h hempty

end Data

end SingleMemoryTopology

end Llvmta
