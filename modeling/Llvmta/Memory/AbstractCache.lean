import Llvmta.Library.CheckedVector
import Llvmta.Memory.CacheTraits

/-!
# Abstract caches

`AbstractCacheImpl` lifts an analysis of one cache set to a cache: a precise
access updates the set of its line, an access with several lines in its interval
is an unknown access to every set of the interval that `getCacheSetInterval`
computes. The analysis of a set is a parameter.
-/

namespace Llvmta

open Checked

/-- The interface of a cache set analysis. -/
structure CacheSetAnalysis (σ : Type) where
  new : (assumeAnEmptyCache : Bool) → σ
  classify : σ → AbstractAddress → Except Fault Classification
  update : σ → AbstractAddress → AccessType → (wantReport : Bool) → Classification →
    Except Fault (σ × Option UpdateReport)
  potentialUpdate : σ → AbstractAddress → AccessType → (wantReport : Bool) →
    Except Fault (σ × Option UpdateReport)
  join : σ → σ → Except Fault σ
  equals : σ → σ → Bool

namespace UpdateReport

/-- `dynamic_cast<JoinableUpdateReport *>`: only write-back reports are joinable. -/
def asJoinable : Option UpdateReport → Option UpdateReport
  | some (.writeback wbPossible dirtifyingStore) => some (.writeback wbPossible dirtifyingStore)
  | _ => none

/-- Joins a joinable report with another one; `none` is a no-op. -/
def join : UpdateReport → Option UpdateReport → UpdateReport
  | .writeback p d, some (.writeback p' d') => .writeback (p || p') (d || d')
  | report, _ => report

end UpdateReport

section Address

variable (T : CacheTraits)

theorem getCachelineAddress_lt (addr : ℕ) : getCachelineAddress T addr < 2 ^ 32 :=
  BitVec.isLt _

def alignToCacheline (addr : ℕ) : ℕ := getCachelineAddress T addr

/-- The tag of an address whose interval lies in one line. -/
def getTagOf (addr : AbstractAddress) : Except Fault ℕ := do
  assertThat (getCachelineAddress T addr.interval.lower ==
    getCachelineAddress T addr.interval.upper) "getCachelineAddress of both bounds agree"
  .ok (getTag T addr.interval.lower)

/-- The set index of an address whose interval lies in one line. -/
def getindexOf (addr : AbstractAddress) : Except Fault ℕ := do
  assertThat (getCachelineAddress T addr.interval.lower ==
    getCachelineAddress T addr.interval.upper) "getCachelineAddress of both bounds agree"
  .ok (getindex T addr.interval.lower)

/-- The address of a line, given by its first byte. -/
def lineAddress (addr : ℕ) : AbstractAddress :=
  .ofAddress (alignToCacheline T addr) (getCachelineAddress_lt T addr)

end Address

@[ext] structure AbstractCacheImpl (σ : Type) where
  cacheSets : List σ
  deriving DecidableEq, Repr

namespace AbstractCacheImpl

variable (T : CacheTraits) {σ : Type} (C : CacheSetAnalysis σ)

def new (assumeAnEmptyCache : Bool) : AbstractCacheImpl σ :=
  ⟨List.replicate T.nSets (C.new assumeAnEmptyCache)⟩

def getTagAndIndex (addr : ℕ) : ℕ × ℕ :=
  let blockNumber := addr / T.lineSize
  (blockNumber / T.nSets, blockNumber % T.nSets)

def getCacheSet (addr : ℕ) : ℕ := addr / T.lineSize % T.nSets

/-- The interval of cache sets that `update` takes the addresses of an interval
to map to. -/
def getCacheSetInterval (addritv : AddressInterval) : ℕ × ℕ :=
  if toUnsigned (T.nSets * T.lineSize) ≤ toUnsigned (addritv.upper + 4 - addritv.lower) then
    (0, T.nSets - 1)
  else (getCacheSet T addritv.lower, getCacheSet T addritv.upper)

/-- The loop over the lines of an interval. It stops when the result is
`CL_UNKNOWN` or the last line is passed; `lowAligned` is a 32-bit number that
wraps around. -/
def classifyLoop (c : AbstractCacheImpl σ) (upAligned : ℕ) :
    ℕ → ℕ → Classification → Except Fault Classification
  | 0, _, _ => .error .divergence
  | fuel + 1, lowAligned, result => do
    if lowAligned ≤ upAligned ∧ result ≠ .clUnknown then
      let set ← read c.cacheSets (getTagAndIndex T lowAligned).2
      let cl ← C.classify set (.ofUnsigned lowAligned)
      classifyLoop c upAligned fuel (toUnsigned (lowAligned + T.lineSize)) (result.join cl)
    else .ok result

/-- More rounds than there are states of the loop counter, twice: a loop that
takes them all repeats itself. -/
def classifyFuel : ℕ := 2 ^ 33

def classify (c : AbstractCacheImpl σ) (addr : AbstractAddress) : Except Fault Classification :=
  if addr.isSameInterval .getUnknownAddress then .ok .clUnknown
  else
    classifyLoop T C c (alignToCacheline T addr.interval.upper) classifyFuel
      (alignToCacheline T addr.interval.lower) .clBot

/-- The loop of `getAge`; `ageOf` is the one of the analysis of a set. -/
def getAgeLoop (ageOf : σ → AbstractAddress → Except Fault ℤ) (c : AbstractCacheImpl σ)
    (upAligned : ℕ) : ℕ → ℕ → ℤ → Except Fault ℤ
  | 0, _, _ => .error .divergence
  | fuel + 1, lowAligned, age => do
    if lowAligned ≤ upAligned ∧ age ≠ intMax then
      let set ← read c.cacheSets (getTagAndIndex T lowAligned).2
      let setAge ← ageOf set (.ofUnsigned lowAligned)
      getAgeLoop ageOf c upAligned fuel (toUnsigned (lowAligned + T.lineSize)) (max age setAge)
    else .ok age

def getAge (ageOf : σ → AbstractAddress → Except Fault ℤ) (c : AbstractCacheImpl σ)
    (addr : AbstractAddress) : Except Fault ℤ :=
  if addr.isSameInterval .getUnknownAddress then .ok intMax
  else
    getAgeLoop T ageOf c (alignToCacheline T addr.interval.upper) classifyFuel
      (alignToCacheline T addr.interval.lower) 0

def updateUnknownSets (addr : AbstractAddress) (load_store : AccessType) (wantReport : Bool) :
    ℕ → ℕ → AbstractCacheImpl σ → Option UpdateReport →
      Except Fault (AbstractCacheImpl σ × Option UpdateReport)
  | 0, _, c, report => .ok (c, report)
  | n + 1, index, c, report => do
    let set ← read c.cacheSets index
    let (set, rep) ← C.potentialUpdate set addr load_store wantReport
    let cacheSets ← write c.cacheSets index set
    let report := if wantReport then
        match report with
        | none => UpdateReport.asJoinable rep
        | some r => some (r.join (UpdateReport.asJoinable rep))
      else report
    updateUnknownSets addr load_store wantReport n (index + 1) ⟨cacheSets⟩ report

/-- The report about an unknown access to the sets `[lower, upper]`, or to the
two intervals of a range that wraps around. -/
def joinReports : Option UpdateReport → Option UpdateReport → UpdateReport
  | some r, some r' => r.join (some r')
  | _, _ => .generic

def updatePrecise (c : AbstractCacheImpl σ) (addr : AbstractAddress) (load_store : AccessType)
    (wantReport : Bool) (assumption : Classification) :
    Except Fault (AbstractCacheImpl σ × Option UpdateReport) := do
  let index := (getTagAndIndex T addr.interval.lower).2
  let set ← read c.cacheSets index
  let (set, report) ←
    C.update set (lineAddress T addr.interval.lower) load_store wantReport assumption
  let cacheSets ← write c.cacheSets index set
  assertThat (report.isSome || !wantReport) "report || !wantReport"
  .ok (⟨cacheSets⟩, report)

def updateImprecise (c : AbstractCacheImpl σ) (addr : AbstractAddress) (load_store : AccessType)
    (wantReport : Bool) : Except Fault (AbstractCacheImpl σ × Option UpdateReport) := do
  let (lower, upper) := getCacheSetInterval T addr.interval
  assertThat (T.nSets == 1 || lower != upper) "Could have performed precise update"
  if lower ≤ upper then
    let (c, report) ←
      updateUnknownSets C addr load_store wantReport (upper + 1 - lower) lower c none
    .ok (c, if wantReport then some (report.getD .generic) else report)
  else
    let (c, report) ←
      updateUnknownSets C addr load_store wantReport (T.nSets - lower) lower c none
    let (c, report₂) ← updateUnknownSets C addr load_store wantReport (upper + 1) 0 c none
    if wantReport then .ok (c, some (joinReports report report₂))
    else
      assertThat (report.isNone && report₂.isNone) "!report && !report2"
      .ok (c, none)

def update (c : AbstractCacheImpl σ) (addr : AbstractAddress) (load_store : AccessType)
    (wantReport : Bool) (assumption : Classification) :
    Except Fault (AbstractCacheImpl σ × Option UpdateReport) :=
  if alignToCacheline T addr.interval.lower = alignToCacheline T addr.interval.upper then
    updatePrecise T C c addr load_store wantReport assumption
  else updateImprecise T C c addr load_store wantReport

def joinLoop : List σ → List σ → Except Fault (List σ)
  | x :: xs, y :: ys => do
    let z ← if C.equals x y then .ok x else C.join x y
    let zs ← joinLoop xs ys
    .ok (z :: zs)
  | _, _ => .ok []

def join (c d : AbstractCacheImpl σ) : Except Fault (AbstractCacheImpl σ) := do
  .ok ⟨← joinLoop C c.cacheSets d.cacheSets⟩

def getHitLatency : ℕ := T.latency

/-- Whether the cache is in write-back and in write-allocate mode. -/
def getWritePolicy : Bool × Bool := (T.writeback, T.writeAllocate)

end AbstractCacheImpl

end Llvmta
