import Llvmta.Library.AgreeingResults
import Llvmta.Memory.AbstractCache
import Llvmta.Util.SharedStorage

/-!
# Caches of shared sets

The sets of a cache are pointers into the shared storage. An operation reads a set, inserts
its result and stores the pointer that is returned. Sets are compared by their pointers.
-/

namespace Llvmta

open Checked

namespace SharedCacheSets

variable (T : CacheTraits) {σ : Type} (C : CacheSetAnalysis σ) (less : σ → σ → Except Fault Bool)

/-- `AbstractCacheImpl(bool assumeAnEmptyCache)` -/
def new (assumeAnEmptyCache : Bool) (s : SharedStorage σ) :
    Except Fault (SharedStorage σ × AbstractCacheImpl ℕ) := do
  let (s, inserted) ← s.construct.insert less (C.new assumeAnEmptyCache)
  .ok (s, ⟨List.replicate T.nSets inserted⟩)

/-- Replaces a set by what an operation makes of its copy. -/
def change {ρ : Type} (s : SharedStorage σ) (c : AbstractCacheImpl ℕ) (index : ℕ)
    (operation : σ → Except Fault (σ × ρ)) :
    Except Fault (SharedStorage σ × AbstractCacheImpl ℕ × ρ) := do
  let ptr ← read c.cacheSets index
  let set ← s.deref ptr
  let (set, report) ← operation set
  let (s, ptr) ← s.insert less set
  let cacheSets ← write c.cacheSets index ptr
  .ok (s, ⟨cacheSets⟩, report)

def classifyLoop (s : SharedStorage σ) (c : AbstractCacheImpl ℕ) (upAligned : ℕ) :
    ℕ → ℕ → Classification → Except Fault Classification
  | 0, _, _ => .error .divergence
  | fuel + 1, lowAligned, result => do
    if lowAligned ≤ upAligned ∧ result ≠ .clUnknown then
      let ptr ← read c.cacheSets (AbstractCacheImpl.getTagAndIndex T lowAligned).2
      let set ← s.deref ptr
      let cl ← C.classify set (.ofUnsigned lowAligned)
      classifyLoop s c upAligned fuel (toUnsigned (lowAligned + T.lineSize)) (result.join cl)
    else .ok result

def classify (s : SharedStorage σ) (c : AbstractCacheImpl ℕ) (addr : AbstractAddress) :
    Except Fault Classification :=
  if addr.isSameInterval .getUnknownAddress then .ok .clUnknown
  else
    classifyLoop T C s c (alignToCacheline T addr.interval.upper) AbstractCacheImpl.classifyFuel
      (alignToCacheline T addr.interval.lower) .clBot

def updateUnknownSets (addr : AbstractAddress) (load_store : AccessType) (wantReport : Bool) :
    ℕ → ℕ → SharedStorage σ → AbstractCacheImpl ℕ → Option UpdateReport →
      Except Fault (SharedStorage σ × AbstractCacheImpl ℕ × Option UpdateReport)
  | 0, _, s, c, report => .ok (s, c, report)
  | n + 1, index, s, c, report => do
    let (s, c, rep) ← change less s c index fun set =>
      C.potentialUpdate set addr load_store wantReport
    let report := if wantReport then
        match report with
        | none => UpdateReport.asJoinable rep
        | some r => some (r.join (UpdateReport.asJoinable rep))
      else report
    updateUnknownSets addr load_store wantReport n (index + 1) s c report

def updatePrecise (s : SharedStorage σ) (c : AbstractCacheImpl ℕ) (addr : AbstractAddress)
    (load_store : AccessType) (wantReport : Bool) (assumption : Classification) :
    Except Fault (SharedStorage σ × AbstractCacheImpl ℕ × Option UpdateReport) := do
  let index := (AbstractCacheImpl.getTagAndIndex T addr.interval.lower).2
  let (s, c, report) ← change less s c index fun set =>
    C.update set (lineAddress T addr.interval.lower) load_store wantReport assumption
  assertThat (report.isSome || !wantReport) "report || !wantReport"
  .ok (s, c, report)

def updateImprecise (s : SharedStorage σ) (c : AbstractCacheImpl ℕ) (addr : AbstractAddress)
    (load_store : AccessType) (wantReport : Bool) :
    Except Fault (SharedStorage σ × AbstractCacheImpl ℕ × Option UpdateReport) := do
  let (lower, upper) := AbstractCacheImpl.getCacheSetInterval T addr.interval
  assertThat (T.nSets == 1 || lower != upper) "Could have performed precise update"
  if lower ≤ upper then
    let (s, c, report) ←
      updateUnknownSets C less addr load_store wantReport (upper + 1 - lower) lower s c none
    .ok (s, c, if wantReport then some (report.getD .generic) else report)
  else
    let (s, c, report) ←
      updateUnknownSets C less addr load_store wantReport (T.nSets - lower) lower s c none
    let (s, c, report₂) ←
      updateUnknownSets C less addr load_store wantReport (upper + 1) 0 s c none
    if wantReport then .ok (s, c, some (AbstractCacheImpl.joinReports report report₂))
    else
      assertThat (report.isNone && report₂.isNone) "!report && !report2"
      .ok (s, c, none)

def update (s : SharedStorage σ) (c : AbstractCacheImpl ℕ) (addr : AbstractAddress)
    (load_store : AccessType) (wantReport : Bool) (assumption : Classification) :
    Except Fault (SharedStorage σ × AbstractCacheImpl ℕ × Option UpdateReport) :=
  if alignToCacheline T addr.interval.lower = alignToCacheline T addr.interval.upper then
    updatePrecise T C less s c addr load_store wantReport assumption
  else updateImprecise T C less s c addr load_store wantReport

/-- "no active joining needed for equal sets" -/
def joinLoop (s : SharedStorage σ) : List ℕ → List ℕ → Except Fault (SharedStorage σ × List ℕ)
  | x :: xs, y :: ys => do
    let (s, z) ← if x = y then .ok (s, x) else do
      let set ← s.deref x
      let other ← s.deref y
      let joined ← C.join set other
      s.insert less joined
    let (s, zs) ← joinLoop s xs ys
    .ok (s, z :: zs)
  | _, _ => .ok (s, [])

def join (s : SharedStorage σ) (c d : AbstractCacheImpl ℕ) :
    Except Fault (SharedStorage σ × AbstractCacheImpl ℕ) := do
  let (s, cacheSets) ← joinLoop C less s c.cacheSets d.cacheSets
  .ok (s, ⟨cacheSets⟩)

/-- "Since SharedStorage returns unique pointers, we can compare pointers to cache sets here." -/
def equals (c d : AbstractCacheImpl ℕ) : Bool := c.cacheSets == d.cacheSets

/-! ## Several caches -/

/-- What is done with the caches that exist, which are told apart by their number. -/
inductive Command where
  | construct (assumeAnEmptyCache : Bool)
  | clone (i : ℕ)
  | destroy (i : ℕ)
  | classify (i : ℕ) (addr : AbstractAddress)
  | update (i : ℕ) (addr : AbstractAddress) (load_store : AccessType) (wantReport : Bool)
      (assumption : Classification)
  | join (i j : ℕ)
  | equals (i j : ℕ)

inductive Answer where
  | done
  | classified (cl : Classification)
  | reported (report : Option UpdateReport)
  | compared (equal : Bool)
  deriving DecidableEq, Repr

/-- A step of the caches whose sets are shared. -/
def step : Command → SharedStorage σ × List (AbstractCacheImpl ℕ) →
    Except Fault ((SharedStorage σ × List (AbstractCacheImpl ℕ)) × Answer)
  | .construct assumeAnEmptyCache, (s, caches) => do
    let (s, c) ← new T C less assumeAnEmptyCache s
    .ok ((s, caches ++ [c]), .done)
  | .clone i, (s, caches) => do
    let c ← read caches i
    .ok ((s.copy, caches ++ [c]), .done)
  | .destroy i, (s, caches) => do
    let _ ← read caches i
    .ok ((s.destroy, caches.eraseIdx i), .done)
  | .classify i addr, (s, caches) => do
    let c ← read caches i
    let cl ← classify T C s c addr
    .ok ((s, caches), .classified cl)
  | .update i addr load_store wantReport assumption, (s, caches) => do
    let c ← read caches i
    let (s, c, report) ← update T C less s c addr load_store wantReport assumption
    let caches ← write caches i c
    .ok ((s, caches), .reported report)
  | .join i j, (s, caches) => do
    let c ← read caches i
    let d ← read caches j
    let (s, c) ← join C less s c d
    let caches ← write caches i c
    .ok ((s, caches), .done)
  | .equals i j, (s, caches) => do
    let c ← read caches i
    let d ← read caches j
    .ok ((s, caches), .compared (equals c d))

/-- All sets are equal by the comparison of the analysis. -/
def equalSets : List σ → List σ → Bool
  | x :: xs, y :: ys => C.equals x y && equalSets xs ys
  | [], [] => true
  | _, _ => false

/-- A step of the caches that have sets of their own. -/
def valueStep : Command → List (AbstractCacheImpl σ) →
    Except Fault (List (AbstractCacheImpl σ) × Answer)
  | .construct assumeAnEmptyCache, caches =>
    .ok (caches ++ [AbstractCacheImpl.new T C assumeAnEmptyCache], .done)
  | .clone i, caches => do
    let c ← read caches i
    .ok (caches ++ [c], .done)
  | .destroy i, caches => do
    let _ ← read caches i
    .ok (caches.eraseIdx i, .done)
  | .classify i addr, caches => do
    let c ← read caches i
    let cl ← AbstractCacheImpl.classify T C c addr
    .ok (caches, .classified cl)
  | .update i addr load_store wantReport assumption, caches => do
    let c ← read caches i
    let (c, report) ← AbstractCacheImpl.update T C c addr load_store wantReport assumption
    let caches ← write caches i c
    .ok (caches, .reported report)
  | .join i j, caches => do
    let c ← read caches i
    let d ← read caches j
    let c ← AbstractCacheImpl.join C c d
    let caches ← write caches i c
    .ok (caches, .done)
  | .equals i j, caches => do
    let c ← read caches i
    let d ← read caches j
    .ok (caches, .compared (equalSets C c.cacheSets d.cacheSets))

/-- The answers to a sequence of commands. -/
def answers {state : Type} (step : Command → state → Except Fault (state × Answer)) :
    List Command → state → Except Fault (List Answer)
  | [], _ => .ok []
  | command :: commands, state => do
    let (state, answer) ← step command state
    let rest ← answers step commands state
    .ok (answer :: rest)

end SharedCacheSets

end Llvmta
