import Llvmta.Library.OrderedMap
import Llvmta.Memory.LruMaxAgeAbstractCache
import Llvmta.Memory.LruMinAgeAbstractCache

/-!
# The dirtiness analysis of a cache set

`DirtinessAnalysis` runs a must and a may analysis and classifies the lines of the
set as dirty, clean or unknown. A line without an entry is clean, or possibly dirty
while `implicitDirty` is set. The reports of the must and the may analysis tell
which entries have to be weakened or dropped.
-/

namespace Llvmta

open Checked

/-- The lattice dirty, clean, unknown, as bits. -/
structure DirtinessClassification where
  value : BitVec 8
  deriving DecidableEq, Repr

namespace DirtinessClassification

def dclDirty : DirtinessClassification := ⟨1⟩
def dclClean : DirtinessClassification := ⟨6⟩
def dclUnknown : DirtinessClassification := ⟨7⟩

def join (x y : DirtinessClassification) : DirtinessClassification := ⟨x.value ||| y.value⟩

end DirtinessClassification

open DirtinessClassification

structure DirtinessAnalysis where
  must : LruMaxAgeAbstractCache
  may : LruMinAgeAbstractCache
  implicitDirty : Bool
  dirtiness : OrderedMap ℕ DirtinessClassification
  deriving DecidableEq, Repr

namespace DirtinessAnalysis

variable (T : CacheTraits)

/-- `AssumeCleanCache` is an option of the analyser. -/
def new (assumeCleanCache assumeAnEmptyCache : Bool) : DirtinessAnalysis where
  must := .new T assumeAnEmptyCache
  may := .new T assumeAnEmptyCache
  implicitDirty := !assumeCleanCache
  dirtiness := .empty

/-- What a line without an entry is taken for. -/
def implicit (d : DirtinessAnalysis) : DirtinessClassification :=
  if d.implicitDirty then dclUnknown else dclClean

def deleteDirtiness (d : DirtinessAnalysis) (todel : DirtinessClassification) :
    DirtinessAnalysis :=
  { d with dirtiness := d.dirtiness.filter fun _ dcl => dcl ≠ todel }

/-- The loop of `existsDirtyVictim` over the entries. -/
def findDirtyVictim (must : LruMaxAgeAbstractCache) :
    List (ℕ × DirtinessClassification) → Except Fault Bool
  | [] => .ok false
  | (tag, dcl) :: rest => do
    if dcl = dclClean then findDirtyVictim must rest
    else if (← must.getMaxAge T tag) = T.associativity then .ok true
    else findDirtyVictim must rest

def existsDirtyVictim (d : DirtinessAnalysis) : Except Fault Bool :=
  if d.implicitDirty then .ok true else findDirtyVictim T d.must d.dirtiness.entries

/-- The tags a must update reports as evicted. -/
def mustEvicted : Option UpdateReport → Except Fault (List ℕ)
  | some (.lruMaxAge evictedElements) => .ok evictedElements
  | _ => .error .outOfBounds

/-- The tags a may update reports as evicted, and `justEvictedUnknowns`. -/
def mayEvicted : Option UpdateReport → Except Fault (List ℕ × Bool)
  | some (.lruMinAge evictedElements justEvictedUnknowns _) =>
    .ok (evictedElements, justEvictedUnknowns)
  | _ => .error .outOfBounds

/-- When the last unknown line is evicted, clean lines and those that cannot be cached
need no entry. -/
def evictUnknowns (d : DirtinessAnalysis) : DirtinessAnalysis :=
  { d with
    implicitDirty := false
    dirtiness := d.dirtiness.filter fun tag dcl =>
      dcl ≠ dclClean && d.may.getMinAge tag ≠ T.associativity }

/-- A line that may have been evicted may be clean. -/
def weaken (dirtiness : OrderedMap ℕ DirtinessClassification) (evTag : ℕ) :
    OrderedMap ℕ DirtinessClassification :=
  if dirtiness.find? evTag = some dclDirty then dirtiness.insert evTag dclUnknown else dirtiness

/-- The loop over the tags that are evicted for sure. -/
def dropEvicted (d : DirtinessAnalysis) : List ℕ → Except Fault DirtinessAnalysis
  | [] => .ok d
  | evTag :: rest =>
    if d.implicitDirty then .error (.assertion "UNREACHABLE")
    else dropEvicted { d with dirtiness := d.dirtiness.erase evTag } rest

def incorporateMustMayUpdates (d : DirtinessAnalysis) (mustReport mayReport : Option UpdateReport) :
    Except Fault DirtinessAnalysis := do
  let (mayTags, justEvictedUnknowns) ← mayEvicted mayReport
  let mustTags ← mustEvicted mustReport
  let d := if justEvictedUnknowns then d.evictUnknowns T else d
  dropEvicted { d with dirtiness := mustTags.foldl weaken d.dirtiness } mayTags

/-- Tracks a tag explicitly if it is not yet. -/
def track (d : DirtinessAnalysis) (tag : ℕ) : DirtinessAnalysis :=
  match d.dirtiness.find? tag with
  | none => { d with dirtiness := d.dirtiness.insert tag d.implicit }
  | some _ => d

/-- `dirtiness.at(tag)` -/
def classificationAt (d : DirtinessAnalysis) (tag : ℕ) : DirtinessClassification :=
  (d.dirtiness.find? tag).getD d.implicit

def reportOf (wantReport wbPossible dirtifyingStore : Bool) : Option UpdateReport :=
  if wantReport then some (.writeback wbPossible dirtifyingStore) else none

/-- The accesses to the must and the may analysis have been made: look for a victim
and bring the entries up to date. -/
def finishAccess (d : DirtinessAnalysis) (must : LruMaxAgeAbstractCache × Option UpdateReport)
    (may : LruMinAgeAbstractCache × Option UpdateReport) :
    Except Fault (DirtinessAnalysis × Bool) := do
  let d := { d with must := must.1, may := may.1 }
  let canWriteback ← d.existsDirtyVictim T
  let d ← d.incorporateMustMayUpdates T must.2 may.2
  .ok (d, canWriteback)

/-- A store turns the tag dirty. -/
def storeTo (d : DirtinessAnalysis) (load_store : AccessType) (tag : ℕ) :
    DirtinessAnalysis × Bool :=
  match load_store with
  | .store =>
    ({ d with dirtiness := d.dirtiness.insert tag dclDirty }, d.classificationAt tag ≠ dclDirty)
  | .load => (d, false)

def update (d : DirtinessAnalysis) (tag : ℕ) (load_store : AccessType) (wantReport : Bool)
    (assumption : Classification) : Except Fault (DirtinessAnalysis × Option UpdateReport) := do
  let (d, dirtifyingStore) := (d.track tag).storeTo load_store tag
  let must ← d.must.update T tag true assumption
  let may ← d.may.update T tag true assumption
  let (d, canWriteback) ← d.finishAccess T must may
  .ok (d, reportOf wantReport canWriteback dirtifyingStore)

/-- A potential update of one tag. -/
def touchTag (load_store : AccessType) (d : DirtinessAnalysis × Bool) (tag : ℕ) :
    DirtinessAnalysis × Bool :=
  let tracked := d.1.track tag
  match load_store with
  | .store =>
    ({ tracked with
        dirtiness := tracked.dirtiness.insert tag ((tracked.classificationAt tag).join dclDirty) },
      d.2 || tracked.classificationAt tag ≠ dclDirty)
  | .load => (tracked, d.2)

/-- `for (TagType t = lowTag; t <= highTag; t++)`, which does not end for the greatest tag. -/
def touchTags (load_store : AccessType) (d : DirtinessAnalysis) (lowTag highTag : ℕ) :
    Except Fault (DirtinessAnalysis × Bool) :=
  if highTag = 2 ^ 32 - 1 then .error .divergence
  else .ok ((List.range' lowTag (highTag + 1 - lowTag)).foldl (touchTag load_store) (d, false))

/-- Any clean line may have been overwritten by a store to an unknown line. -/
def storeAnywhere (d : DirtinessAnalysis) (load_store : AccessType) : DirtinessAnalysis × Bool :=
  match load_store with
  | .store => ({ d.deleteDirtiness dclClean with implicitDirty := true }, true)
  | .load => (d, false)

def maxWorthwhileTags : ℕ := 4

/-- The tags that may have been accessed are touched one by one unless there are too many.
The warning about a may analysis that still tracks the lines is left out. -/
def touchInterval (d : DirtinessAnalysis) (itv : AddressInterval) (load_store : AccessType) :
    Except Fault (DirtinessAnalysis × Bool) :=
  let lowTag := getTag T itv.lower
  let highTag := getTag T itv.upper
  if maxWorthwhileTags < toUnsigned (highTag - lowTag + 1) then .ok (d.storeAnywhere load_store)
  else touchTags load_store d lowTag highTag

def potentialUpdate (d : DirtinessAnalysis) (itv : AddressInterval) (load_store : AccessType)
    (wantReport : Bool) : Except Fault (DirtinessAnalysis × Option UpdateReport) := do
  let must ← d.must.potentialUpdate T true
  let may ← d.may.potentialUpdate T itv true
  let (d, canWriteback) ← d.finishAccess T must may
  let (d, dirtifyingStore) ← d.touchInterval T itv load_store
  .ok (d, reportOf wantReport canWriteback dirtifyingStore)

def join (d y : DirtinessAnalysis) : Except Fault DirtinessAnalysis := do
  let must ← LruMaxAgeAbstractCache.join T d.must y.must
  let may ← d.may.join y.may
  .ok { must, may, implicitDirty := d.implicitDirty || y.implicitDirty,
        dirtiness := OrderedMap.merge
          (fun _ xelem yelem => (xelem.getD d.implicit).join (yelem.getD y.implicit))
          d.dirtiness y.dirtiness }

end DirtinessAnalysis

end Llvmta
