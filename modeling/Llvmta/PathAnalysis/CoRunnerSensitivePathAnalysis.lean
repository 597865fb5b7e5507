import Llvmta.Library.CheckedVector
import Llvmta.Library.EncodedTop

/-!
# The co-runner-sensitive path analysis

The WCET bound of a program is calculated under a bound on the cycles it is blocked by
the other cores, and this bound from the cycles that those cores access the bus in the
time of their own WCET bounds. The analyses of all cores exchange their bounds until
none of them changes. The greatest fixed point is approached from arbitrary blocking,
the least one from no blocking. Infinity is represented by `-1`.
-/

namespace Llvmta

open Checked EncodedTop

inductive FixedPointType where
  | least
  | greatest
  deriving DecidableEq, Repr

/-- The options that concern the analysis. -/
structure CoRunnerOptions where
  fixedPointType : FixedPointType
  numConcurrentCores : ℕ
  /-- the WCET bound is not calculated -/
  noWcetBound : Bool
  /-- the maximal number of access cycles is the interval length -/
  noArrivalCurveValues : Bool
  /-- `ArrivalCurveCalculationMethod::PROGRAM_GRANULARITY` -/
  programGranularity : Bool
  /-- the access cycle bounds are not given by an option -/
  interactive : Bool
  deriving DecidableEq, Repr

/-- The bounds on the blocking cycles and on the concurrent accesses that are added to
the flow constraints, `⊤` standing for no constraint. -/
abbrev BlockingConstraints := WithTop ℤ × WithTop ℤ

/-- The path analyses of the program of this core. -/
structure PathAnalyses where
  /-- the maximal execution time under constraints -/
  maxTime : BlockingConstraints → WithTop ℕ
  maxAccesses : WithTop ℕ
  /-- `maxAccessCyclesPerInner` -/
  accessCyclesPer : (time : ℤ) → ℤ
  busCyclesPerAccess : ℕ
  busCyclesPerAccess_pos : 0 < busCyclesPerAccess

/-- What the other cores tell in one iteration. -/
structure CoRunnerRound where
  concurrentWcetBounds : List ℤ
  accessCycleBounds : List ℤ
  concurrentWcetBoundChanged : Bool
  deriving DecidableEq, Repr

structure CoRunnerState where
  wcetBound : ℤ
  previousWcetBound : ℤ
  blockingBound : ℤ
  concAccessesBound : ℤ
  recalculateWcetBound : Bool
  flowAndBlockingConstr : BlockingConstraints
  maxAccessCyclesPerCache : List (ℤ × ℤ)
  /-- the access cycle bounds of this core that were output last -/
  outputAccessCycleBounds : List ℤ
  deriving DecidableEq

namespace CoRunner

def infinity : ℤ := -1

variable (opts : CoRunnerOptions) (P : PathAnalyses)

/-- The upper bound on the number of bus accesses in any program run. -/
def accessBound : ℤ :=
  if opts.programGranularity || !opts.noWcetBound then encode P.maxAccesses else 0

/-- The maximal access cycles of this core in an interval, with the cache of the values. -/
def maxAccessCyclesPer (cache : List (ℤ × ℤ)) (time : ℤ) : ℤ × List (ℤ × ℤ) :=
  if opts.noArrivalCurveValues then (time, cache)
  else
    match cache.lookup time with
    | some value => (value, cache)
    | none =>
      let value := if time = infinity then infinity else P.accessCyclesPer time
      (value, (time, value) :: cache)

/-- The access cycles of this core for each of the intervals. -/
def accessCyclesOfThisCore : List (ℤ × ℤ) → List ℤ → List ℤ × List (ℤ × ℤ)
  | cache, [] => ([], cache)
  | cache, time :: times =>
    let (value, cache) := maxAccessCyclesPer opts P cache time
    let (values, cache) := accessCyclesOfThisCore cache times
    (value :: values, cache)

def calcAndExchangeAccessCycleBounds (s : CoRunnerState) (round : CoRunnerRound) :
    Except Fault CoRunnerState := do
  if opts.interactive then
    assertThat (round.concurrentWcetBounds.length == opts.numConcurrentCores)
      "There needs to be one WCET bound per concurrent core."
    let (values, cache) :=
      accessCyclesOfThisCore opts P s.maxAccessCyclesPerCache round.concurrentWcetBounds
    .ok { s with maxAccessCyclesPerCache := cache, outputAccessCycleBounds := values }
  else
    assertThat (round.accessCycleBounds.length == opts.numConcurrentCores)
      "Wrong number of elements inserted."
    .ok s

/-- The maximum amount of blocking cycles per concurrent core. -/
def maxBlockingPerCore : ℤ := accessBound opts P * P.busCyclesPerAccess

def blockingContribution (accessCycleBound : ℤ) : ℤ :=
  if accessCycleBound ≠ infinity ∧ accessCycleBound < maxBlockingPerCore opts P then
    accessCycleBound
  else maxBlockingPerCore opts P

/-- The division of integers rounds towards zero. -/
def concAccessesContribution (accessCycleBound : ℤ) : ℤ :=
  let blocking := blockingContribution opts P accessCycleBound
  blocking.tdiv P.busCyclesPerAccess +
    if 1 ≤ blocking.tmod P.busCyclesPerAccess then 1 else 0

/-- Whether a new blocking bound may lead to another WCET bound. -/
def shouldRecalculate (s : CoRunnerState) (newBlockingBound : ℤ) : Bool :=
  match opts.fixedPointType with
  | .greatest =>
    (s.blockingBound == infinity && newBlockingBound != infinity ||
        decide (newBlockingBound < s.blockingBound)) &&
      decide (newBlockingBound < s.wcetBound) &&
      decide (newBlockingBound < maxBlockingPerCore opts P * opts.numConcurrentCores)
  | .least =>
    s.blockingBound != infinity && newBlockingBound == infinity ||
      decide (s.blockingBound < newBlockingBound)

def calcBlockingBound (s : CoRunnerState) (accessCycleBounds : List ℤ) :
    Except Fault CoRunnerState := do
  assertThat (accessCycleBounds.length == opts.numConcurrentCores)
    "There needs to be one access cycle bound per concurrent core."
  let newBlockingBound := (accessCycleBounds.map (blockingContribution opts P)).sum
  let newConcAccessesBound := (accessCycleBounds.map (concAccessesContribution opts P)).sum
  .ok { s with
    recalculateWcetBound := shouldRecalculate opts P s newBlockingBound
    blockingBound := newBlockingBound
    concAccessesBound := newConcAccessesBound }

/-- The constraint for a bound, if it is finite. -/
def constraintOf (bound : ℤ) : WithTop ℤ := if bound ≠ infinity then bound else ⊤

def calcBlockingConstr (s : CoRunnerState) : Except Fault CoRunnerState := do
  assertThat (s.blockingBound != infinity || s.concAccessesBound != infinity)
    "blockingBound != infinity || concAccessesBound != infinity"
  if s.recalculateWcetBound then
    .ok { s with
      flowAndBlockingConstr := (constraintOf s.blockingBound, constraintOf s.concAccessesBound) }
  else .ok s

def calcWcetBound (s : CoRunnerState) : CoRunnerState :=
  if opts.noWcetBound then { s with wcetBound := infinity }
  else
    let constraints := if s.blockingBound ≠ infinity ∨ s.concAccessesBound ≠ infinity then
        s.flowAndBlockingConstr
      else (⊤, ⊤)
    { s with wcetBound := encode (P.maxTime constraints) }

/-- The bounds on the interference before the first iteration. -/
def initialBound : ℤ :=
  match opts.fixedPointType with
  | .greatest => infinity
  | .least => 0

/-- The upper bound on the execution time before the first iteration. -/
def firstWcetBound : Except Fault CoRunnerState := do
  let s : CoRunnerState :=
    ⟨0, 0, initialBound opts, initialBound opts, true, (⊤, ⊤), [], []⟩
  let s ← if opts.fixedPointType = .least then calcBlockingConstr s else .ok s
  .ok (calcWcetBound opts P s)

/-- Whether the bound goes in the wrong direction; then the old value is kept. -/
def wrongDirection (s : CoRunnerState) : Bool :=
  match opts.fixedPointType with
  | .greatest => decide (s.previousWcetBound < s.wcetBound)
  | .least => decide (s.wcetBound < s.previousWcetBound)

def recalculate (s : CoRunnerState) : Except Fault CoRunnerState := do
  let s ← calcBlockingConstr s
  let s := calcWcetBound opts P s
  let s := if wrongDirection opts s then { s with wcetBound := s.previousWcetBound } else s
  assertThat (!wrongDirection opts s) "Iterative approach should be monotone!"
  .ok s

/-- An infinite WCET bound is not recalculated. -/
def additionalIteration (s : CoRunnerState) (round : CoRunnerRound) :
    Except Fault CoRunnerState := do
  let s ← calcAndExchangeAccessCycleBounds opts P s round
  let s ← if s.wcetBound ≠ infinity then calcBlockingBound opts P s round.accessCycleBounds
    else .ok { s with recalculateWcetBound := false }
  let s := { s with previousWcetBound := s.wcetBound }
  if s.recalculateWcetBound then recalculate opts P s else .ok s

def hasOwnWcetBoundChanged (s : CoRunnerState) : Bool :=
  match opts.fixedPointType with
  | .greatest => decide (s.wcetBound < s.previousWcetBound)
  | .least => decide (s.previousWcetBound < s.wcetBound)

/-- Whether the iteration goes on; if the bounds are given by an option, while there
are some left. -/
def anyWcetBoundChanged (s : CoRunnerState) (round : CoRunnerRound) (rest : List CoRunnerRound) :
    Bool :=
  if opts.interactive then
    hasOwnWcetBoundChanged opts s || round.concurrentWcetBoundChanged
  else !rest.isEmpty

/-- The iteration loop, with the input that is left when it ends. -/
def iterate : CoRunnerState → List CoRunnerRound → Except Fault (CoRunnerState × List CoRunnerRound)
  | _, [] => .error (.assertion "Not enough elements remaining.")
  | s, round :: rest => do
    let s ← additionalIteration opts P s round
    if anyWcetBoundChanged opts s round rest then iterate s rest else .ok (s, rest)

/-- The bound that is returned, `⊤` if there is none. -/
def doCoRunnerSensitivePathAnalysis (rounds : List CoRunnerRound) :
    Except Fault (WithTop ℤ × List CoRunnerRound) := do
  assertThat (decide (1 ≤ opts.numConcurrentCores))
    "The co-runner-sensitive analysis does not work without concurrent cores."
  assertThat (!opts.noWcetBound || !opts.noArrivalCurveValues)
    "At least one of these options has to be false."
  let s ← firstWcetBound opts P
  let (s, rest) ← iterate opts P s rounds
  .ok (if s.wcetBound ≠ infinity then s.wcetBound else ⊤, rest)

end CoRunner

end Llvmta
