import Llvmta.Memory.LruMaxAgeAbstractCache
import Llvmta.Memory.LruMinAgeAbstractCache
import Llvmta.Memory.MemoryTopologyInterface

/-!
# Two analyses of a cache set together

What the first analysis does not classify is left to the second one. Both are
updated under the classification that they agree on. The must and the may analysis
are put together in this way, and lifted to a cache.
-/

namespace Llvmta

open Checked

namespace CompositionalAbstractCache

variable {σ τ : Type} (A : CacheSetAnalysis σ) (B : CacheSetAnalysis τ)

def classify (s : σ × τ) (addr : AbstractAddress) : Except Fault Classification := do
  let cl ← A.classify s.1 addr
  if cl ≠ .clUnknown then .ok cl else B.classify s.2 addr

/-- The report of the first analysis, joined with that of the second one if it can be
joined, else the generic report. -/
def joinReports (wantReport : Bool) (report report2 : Option UpdateReport) :
    Except Fault (Option UpdateReport) :=
  if wantReport then
    .ok (some (match UpdateReport.asJoinable report with
      | none => .generic
      | some jreport => jreport.join (UpdateReport.asJoinable report2)))
  else do
    assertThat (report.isNone && report2.isNone) "!report && !report2"
    .ok none

def update (s : σ × τ) (addr : AbstractAddress) (load_store : AccessType) (wantReport : Bool)
    (assumption : Classification) : Except Fault ((σ × τ) × Option UpdateReport) := do
  let cl ← if assumption = .clUnknown then classify A B s addr else .ok assumption
  assertThat (cl != .clBot) "cl != CL_BOT"
  let (s1, report) ← A.update s.1 addr load_store wantReport cl
  let (s2, report2) ← B.update s.2 addr load_store wantReport cl
  .ok ((s1, s2), ← joinReports wantReport report report2)

def potentialUpdate (s : σ × τ) (addr : AbstractAddress) (load_store : AccessType)
    (wantReport : Bool) : Except Fault ((σ × τ) × Option UpdateReport) := do
  let (s1, report) ← A.potentialUpdate s.1 addr load_store wantReport
  let (s2, report2) ← B.potentialUpdate s.2 addr load_store wantReport
  .ok ((s1, s2), ← joinReports wantReport report report2)

def join (s s' : σ × τ) : Except Fault (σ × τ) := do
  let s1 ← A.join s.1 s'.1
  let s2 ← B.join s.2 s'.2
  .ok (s1, s2)

/-- The composition as an analysis of a cache set. -/
def setAnalysis : CacheSetAnalysis (σ × τ) where
  new := fun empty => (A.new empty, B.new empty)
  classify := classify A B
  update := update A B
  potentialUpdate := potentialUpdate A B
  join := join A B
  equals := fun s s' => A.equals s.1 s'.1 && B.equals s.2 s'.2

end CompositionalAbstractCache

section Instances

variable (T : CacheTraits) (M : Multicore)

/-- The must analysis as an analysis of a cache set. -/
def LruMaxAgeAbstractCache.setAnalysis : CacheSetAnalysis LruMaxAgeAbstractCache where
  new := LruMaxAgeAbstractCache.new T
  classify := fun s addr => do
    LruMaxAgeAbstractCache.classify T M s (← getTagOf T addr) (← getindexOf T addr)
  update := fun s addr _ wantReport assumption => do
    LruMaxAgeAbstractCache.update T s (← getTagOf T addr) wantReport assumption
  potentialUpdate := fun s _ _ wantReport =>
    LruMaxAgeAbstractCache.potentialUpdate T s wantReport
  join := LruMaxAgeAbstractCache.join T
  equals := fun s s' => s.size == s'.size && s.tags.take s.size == s'.tags.take s.size &&
    s.ages.take s.size == s'.ages.take s.size

/-- The may analysis as an analysis of a cache set. -/
def LruMinAgeAbstractCache.setAnalysis : CacheSetAnalysis LruMinAgeAbstractCache where
  new := LruMinAgeAbstractCache.new T
  classify := fun s addr => do
    .ok (LruMinAgeAbstractCache.classify T M s (← getTagOf T addr) (← getindexOf T addr))
  update := fun s addr _ wantReport assumption => do
    LruMinAgeAbstractCache.update T s (← getTagOf T addr) wantReport assumption
  potentialUpdate := fun s addr _ wantReport =>
    LruMinAgeAbstractCache.potentialUpdate T s addr.interval wantReport
  join := LruMinAgeAbstractCache.join
  equals := fun s s' => s == s'

/-- A cache of an analysis that does not depend on scopes. -/
def AbstractCacheImpl.cache {σ : Type} (C : CacheSetAnalysis σ) :
    AbstractCache (AbstractCacheImpl σ) where
  new := AbstractCacheImpl.new T C
  classify := AbstractCacheImpl.classify T C
  update := AbstractCacheImpl.update T C
  join := AbstractCacheImpl.join C
  enterScope := fun c _ => c
  leaveScope := fun c _ => c
  alignToCacheline := Llvmta.alignToCacheline T
  getHitLatency := AbstractCacheImpl.getHitLatency T
  getWritePolicy := ⟨T.writeback, T.writeAllocate⟩

/-- The cache for the replacement policy `LRU` without persistence analysis. -/
def makeOptionsCache : AbstractCache
    (AbstractCacheImpl (LruMaxAgeAbstractCache × LruMinAgeAbstractCache)) :=
  AbstractCacheImpl.cache T (CompositionalAbstractCache.setAnalysis
    (LruMaxAgeAbstractCache.setAnalysis T M) (LruMinAgeAbstractCache.setAnalysis T M))

end Instances

end Llvmta
