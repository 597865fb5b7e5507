import Llvmta.Library.CheckedVector
import Mathlib.Data.Finset.Range
import Mathlib.Algebra.BigOperators.Group.Finset.Basic

/-!
# The windows of the tasks on several cores

The tasks of a core run one after the other. A task is at work from the sum of the best-case
execution times of the tasks before it to the sum of the worst-case execution times up to
its own. The windows are found by the names of functions, and are updated along with those of
their neighbours. All times are unsigned numbers of 32 bits.
-/

namespace Llvmta

open Checked

/-- The earliest start and the latest stop of a task; or its BCET and WCET. -/
abbrev TimePair := BitVec 32 × BitVec 32

/-- The vectors of a core. -/
structure CoreTasks where
  coreinfo : List String
  /-- the index of a function on its core -/
  coreOrz : String → Option ℕ
  schedule : List TimePair
  BWtime : List TimePair

/-- All vectors have an entry for each core. -/
structure Multicoreinfo where
  cores : List CoreTasks

namespace CoreTasks

def empty : CoreTasks := ⟨[], fun _ => none, [], []⟩

/-- The index of a function that is already on the core is kept. -/
def addTask (core : CoreTasks) (function : String) : CoreTasks where
  coreinfo := core.coreinfo ++ [function]
  coreOrz f :=
    match core.coreOrz f with
    | some index => some index
    | none => if f = function then some core.coreinfo.length else none
  schedule := core.schedule ++ [(0, 0)]
  BWtime := core.BWtime ++ [(0, 0)]

/-- Whether the execution times have changed, and the times afterwards. -/
def updateTimes (BWtime : List TimePair) (taskNum : ℕ) (early latest : BitVec 32) :
    Except Fault (Bool × List TimePair) := do
  let times ← read BWtime taskNum
  if times.1 ≠ early ∨ times.2 ≠ latest then do
    let BWtime ← write BWtime taskNum (early, latest)
    .ok (true, BWtime)
  else .ok (false, BWtime)

/-- The latest stop of the task before. -/
def latestBefore (schedule : List TimePair) (taskNum : ℕ) : Except Fault (BitVec 32) :=
  if taskNum = 0 then .ok 0
  else do
    let previous ← read schedule (taskNum - 1)
    .ok previous.2

/-- The earliest start of the next task, if there is one. -/
def updateNext (schedule : List TimePair) (taskNum : ℕ) (early : BitVec 32) :
    Except Fault (List TimePair) :=
  if taskNum ≠ schedule.length - 1 then do
    let own ← read schedule taskNum
    let next ← read schedule (taskNum + 1)
    write schedule (taskNum + 1) (own.1 + early, next.2)
  else .ok schedule

def updateTaskTime (core : CoreTasks) (function : String) (early latest : BitVec 32) :
    Except Fault (Bool × CoreTasks) :=
  match core.coreOrz function with
  | none => .ok (false, core)
  | some taskNum => do
    let (changed, BWtime) ← updateTimes core.BWtime taskNum early latest
    let before ← latestBefore core.schedule taskNum
    let own ← read core.schedule taskNum
    let schedule ← write core.schedule taskNum (own.1, before + latest)
    let schedule ← updateNext schedule taskNum early
    .ok (changed, { core with schedule := schedule, BWtime := BWtime })

end CoreTasks

/-- Whether the window of another task is in conflict with a window. -/
def conflicts (liftime tlifetime : TimePair) : Bool :=
  (decide (tlifetime.2 > liftime.1) && decide (tlifetime.2 < liftime.2)) ||
    (decide (tlifetime.1 ≥ liftime.1) && decide (tlifetime.1 < liftime.2)) ||
    (decide (liftime.1 ≥ tlifetime.1) && decide (liftime.2 ≤ tlifetime.2))

namespace Multicoreinfo

variable (mcif : Multicoreinfo)

def new (coreNum : ℕ) : Multicoreinfo := ⟨List.replicate coreNum .empty⟩

def addTask (num : ℕ) (function : String) : Except Fault Multicoreinfo := do
  let core ← read mcif.cores num
  let cores ← write mcif.cores num (core.addTask function)
  .ok ⟨cores⟩

def updateTaskTime (core : ℕ) (function : String) (early latest : BitVec 32) :
    Except Fault (Bool × Multicoreinfo) := do
  let tasks ← read mcif.cores core
  let (changed, tasks) ← tasks.updateTaskTime function early latest
  let cores ← write mcif.cores core tasks
  .ok (changed, ⟨cores⟩)

/-- `coreOrz[core][function]`, which enters a function that is not there. -/
def indexOf (core : ℕ) (function : String) : Except Fault (ℕ × Multicoreinfo) := do
  let tasks ← read mcif.cores core
  match tasks.coreOrz function with
  | some index => .ok (index, mcif)
  | none => do
    let cores ← write mcif.cores core
      { tasks with coreOrz := fun f => if f = function then some 0 else tasks.coreOrz f }
    .ok (0, ⟨cores⟩)

/-- The functions of a core whose windows are in conflict with a window. -/
def conflictsOn (liftime : TimePair) (tasks : CoreTasks) : List String :=
  ((tasks.schedule.zip tasks.coreinfo).filter fun task => conflicts liftime task.1).map Prod.snd

def getConflictFunction (core : ℕ) (function : String) :
    Except Fault (List String × Multicoreinfo) := do
  let (index, mcif) ← mcif.indexOf core function
  let tasks ← read mcif.cores core
  let liftime ← read tasks.schedule index
  .ok (mcif.cores.zipIdx.flatMap (fun other =>
    if other.2 = core then [] else conflictsOn liftime other.1), mcif)

end Multicoreinfo

namespace CoreTasks

/-- The start and the stop of a window by its index. -/
def startOf (core : CoreTasks) (j : ℕ) : BitVec 32 := (core.schedule.getD j (0, 0)).1

def stopOf (core : CoreTasks) (j : ℕ) : BitVec 32 := (core.schedule.getD j (0, 0)).2

/-- The vectors of a core fit to each other, and the first task starts at the beginning. -/
structure WellFormed (core : CoreTasks) : Prop where
  schedule_length : core.schedule.length = core.coreinfo.length
  BWtime_length : core.BWtime.length = core.coreinfo.length
  coreOrz_eq : ∀ f, core.coreOrz f =
    if f ∈ core.coreinfo then some (core.coreinfo.idxOf f) else none
  startOf_zero : core.startOf 0 = 0

/-- What an update of the task at an index does to the windows. -/
structure UpdatesAt (i : ℕ) (early latest : BitVec 32) (core core' : CoreTasks) : Prop where
  coreinfo : core'.coreinfo = core.coreinfo
  coreOrz : core'.coreOrz = core.coreOrz
  schedule_length : core'.schedule.length = core.schedule.length
  BWtime_length : core'.BWtime.length = core.BWtime.length
  startOf : ∀ j, core'.startOf j =
    if j = i + 1 ∧ j < core.schedule.length then core.startOf i + early else core.startOf j
  stopOf : ∀ j, core'.stopOf j =
    if j = i then (if i = 0 then 0 else core.stopOf (i - 1)) + latest else core.stopOf j

section Update

variable {core : CoreTasks} {f : String} {i : ℕ} {early latest : BitVec 32}

theorem WellFormed.empty : WellFormed empty := by
  constructor <;> simp [CoreTasks.empty, startOf]

theorem WellFormed.addTask (h : core.WellFormed) (function : String) :
    (core.addTask function).WellFormed where
  schedule_length := by simp [CoreTasks.addTask, h.schedule_length]
  BWtime_length := by simp [CoreTasks.addTask, h.BWtime_length]
  coreOrz_eq g := by
    unfold CoreTasks.addTask
    dsimp only
    rw [h.coreOrz_eq]
    by_cases hg : g ∈ core.coreinfo
    · simp [hg, List.idxOf_append_of_mem]
    · by_cases hf : g = function
      · subst hf
        simp [hg, List.idxOf_append_of_notMem]
      · simp [hg, hf]
  startOf_zero := by
    have hzero := h.startOf_zero
    unfold startOf CoreTasks.addTask at *
    dsimp only
    cases hschedule : core.schedule with
    | nil => rfl
    | cons window windows =>
      rw [hschedule] at hzero
      exact hzero

theorem getD_of_lt {l : List TimePair} (hi : i < l.length) : l.getD i (0, 0) = l[i] := by
  simp [hi]

theorem updateTimes_eq (BWtime : List TimePair) (hi : i < BWtime.length)
    (early latest : BitVec 32) :
    ∃ changed BWtime', updateTimes BWtime i early latest = .ok (changed, BWtime') ∧
      BWtime'.length = BWtime.length := by
  unfold updateTimes
  rw [read_of_lt hi]
  dsimp only [bind, Except.bind]
  split_ifs
  · rw [write_of_lt hi]
    exact ⟨true, _, rfl, by simp⟩
  · exact ⟨false, _, rfl, rfl⟩

theorem latestBefore_eq (schedule : List TimePair) (hi : i < schedule.length) :
    latestBefore schedule i =
      .ok (if i = 0 then 0 else (schedule.getD (i - 1) (0, 0)).2) := by
  unfold latestBefore
  split_ifs
  · rfl
  · have hlt : i - 1 < schedule.length := by omega
    rw [read_of_lt hlt, getD_of_lt hlt]
    rfl

/-- Behind the last task there is none to set. -/
theorem updateNext_eq (schedule : List TimePair) (hi : i < schedule.length) :
    updateNext schedule i early = .ok (schedule.set (i + 1)
      ((schedule.getD i (0, 0)).1 + early, (schedule.getD (i + 1) (0, 0)).2)) := by
  unfold updateNext
  split_ifs with hlast
  · have hlt : i + 1 < schedule.length := by omega
    rw [read_of_lt hi, read_of_lt hlt]
    dsimp only [bind, Except.bind]
    rw [write_of_lt hlt, getD_of_lt hi, getD_of_lt hlt]
  · rw [List.set_eq_of_length_le (by omega)]

theorem getD_set (l : List TimePair) (i j : ℕ) (a : TimePair) :
    (l.set i a).getD j (0, 0) = if i = j ∧ j < l.length then a else l.getD j (0, 0) := by
  rw [List.getD_eq_getElem?_getD, List.getElem?_set, List.getD_eq_getElem?_getD]
  by_cases hij : i = j
  · subst hij
    by_cases hi : i < l.length <;> simp [hi]
  · simp [hij]

/-- An update sets the stop of its task, and the start of the next one. -/
theorem updateTaskTime_spec (hindex : core.coreOrz f = some i) (hi : i < core.schedule.length)
    (hBW : i < core.BWtime.length) :
    ∃ changed core', core.updateTaskTime f early latest = .ok (changed, core') ∧
      UpdatesAt i early latest core core' := by
  obtain ⟨changed, BWtime', htimes, hlength⟩ := updateTimes_eq core.BWtime hBW early latest
  unfold updateTaskTime
  rw [hindex]
  dsimp only
  rw [htimes]
  dsimp only [bind, Except.bind]
  rw [latestBefore_eq _ hi, read_of_lt hi]
  dsimp only
  rw [write_of_lt hi]
  dsimp only
  rw [updateNext_eq _ (by simpa using hi)]
  refine ⟨changed, _, rfl, rfl, rfl, by simp, hlength, fun j => ?_, fun j => ?_⟩
  · unfold startOf
    dsimp only
    rw [getD_set, getD_set, getD_set, ← getD_of_lt hi]
    grind
  · unfold stopOf
    dsimp only
    rw [getD_set, getD_set, getD_set]
    grind

end Update

end CoreTasks

end Llvmta
