import Llvmta.Library.CheckedVector
import Llvmta.Memory.AgedTag

/-!
# The may analysis of a cache set

`LruMinAgeAbstractCache` keeps lower bounds on ages: one for each explicit tag
and one, `ageOfImplicitTags`, for all others. Explicit tags whose bound is no
better than the common one are redundant. As for the must analysis, the loops
over the vector are recursions on the cursor with checked reads and writes.
-/

namespace Llvmta

open Checked

@[ext] structure LruMinAgeAbstractCache where
  explicitTags : List AgedTag
  ageOfImplicitTags : ℕ
  deriving DecidableEq, Repr

/-- A finite or, when it is the universe, a co-finite set of tags. -/
structure ImplicitSet where
  elements : List ℕ
  isUniverse : Bool
  deriving DecidableEq, Repr

def ImplicitSet.count (s : ImplicitSet) (x : ℕ) : ℕ :=
  let c := if x ∈ s.elements then 1 else 0
  if s.isUniverse then 1 - c else c

namespace LruMinAgeAbstractCache

variable (T : CacheTraits)

def new (assumeAnEmptyCache : Bool) : LruMinAgeAbstractCache :=
  ⟨[], if assumeAnEmptyCache then toWay T.associativity else 0⟩

def reportOf (wantReport : Bool) (evicted : List ℕ)
    (justEvictedUnknowns justIntroducedUnknowns : Bool) : Option UpdateReport :=
  if wantReport then some (.lruMinAge evicted justEvictedUnknowns justIntroducedUnknowns) else none

/-- The first entry of a tag. -/
def lookup (v : List AgedTag) (tag : ℕ) : Option AgedTag := v.find? fun e => e.tag = tag

def classify (M : Multicore) (s : LruMinAgeAbstractCache) (tag index : ℕ) : Classification :=
  let CNN := M.conflicts T tag index
  if toUnsigned (s.ageOfImplicitTags + CNN) < T.associativity then .clUnknown
  else match lookup s.explicitTags tag with
    | some e => if T.associativity ≤ toUnsigned (e.age + CNN) then .clMiss else .clUnknown
    | none => .clMiss

def getMinAge (s : LruMinAgeAbstractCache) (tag : ℕ) : ℕ :=
  match lookup s.explicitTags tag with
  | some e => e.age
  | none => s.ageOfImplicitTags

def getTagsWithMaxMinAge (s : LruMinAgeAbstractCache) (minAge : ℤ) : ImplicitSet :=
  if (s.ageOfImplicitTags : ℤ) ≤ minAge then ⟨[], true⟩
  else ⟨(s.explicitTags.takeWhile fun e => (e.age : ℤ) ≤ minAge).map AgedTag.tag, false⟩

def removeRedundantTags (s : LruMinAgeAbstractCache) : Except Fault LruMinAgeAbstractCache := do
  let size ← trimEnd (fun e => decide (s.ageOfImplicitTags ≤ e.age)) s.explicitTags
    s.explicitTags.length
  .ok { s with explicitTags := resize s.explicitTags size ⟨0, 0⟩ }

/-- The loop that determines the new size when the accessed tag is absent or
oldest. It collects the tags that are evicted for sure. -/
def oldestLoop (A ageOfImplicitTags pos : ℕ) (v : List AgedTag) :
    ℕ → List ℕ → Except Fault (ℕ × List ℕ)
  | 0, evicted => .ok (0, evicted)
  | size + 1, evicted => do
    let e ← read v size
    if e.age = A - 1 then
      oldestLoop A ageOfImplicitTags pos v size
        (if pos ≠ size ∧ ageOfImplicitTags = A then e.tag :: evicted else evicted)
    else .ok (size + 1, evicted)

/-- Ages the elements of the accessed age left of the accessed element and moves
them over it. Returns `lowerDelimiter`. -/
def leftLoop (accessedAge : ℕ) : ℕ → List AgedTag → Except Fault (ℕ × List AgedTag)
  | 0, v => .ok (0, v)
  | i + 1, v => do
    let e ← read v i
    if e.age = accessedAge then
      leftLoop accessedAge i (← write v (i + 1) ⟨e.tag, toWay (accessedAge + 1)⟩)
    else .ok (i + 1, v)

/-- Ages the elements of the accessed age right of the accessed element. Returns
`upperDelimiter`. -/
def rightLoop (accessedAge : ℕ) : ℕ → ℕ → List AgedTag → Except Fault (ℕ × List AgedTag)
  | 0, i, v => .ok (i - 1, v)
  | n + 1, i, v => do
    let e ← read v i
    if e.age = accessedAge then
      rightLoop accessedAge n (i + 1) (← write v i ⟨e.tag, toWay (accessedAge + 1)⟩)
    else .ok (i - 1, v)

def writeTag (v : List AgedTag) (i tag : ℕ) : Except Fault (List AgedTag) := do
  let e ← read v i
  write v i ⟨tag, e.age⟩

/-- Moves `currentTag` to its position among the elements of age `accessedAge + 1`. -/
def moveTag (accessedAge currentTag : ℕ) : ℕ → ℕ → List AgedTag → Except Fault (List AgedTag)
  | 0, p, v => writeTag v p currentTag
  | n + 1, p, v => do
    let e ← read v (p + 1)
    if e.age ≤ accessedAge + 1 ∧ e.tag < currentTag then
      moveTag accessedAge currentTag n (p + 1) (← writeTag v p e.tag)
    else writeTag v p currentTag

/-- Merges the elements in `(lowerDelimiter, lowerDelimiter + k]` with those behind. -/
def mergeLoop (accessedAge size lowerDelimiter : ℕ) :
    ℕ → List AgedTag → Except Fault (List AgedTag)
  | 0, v => .ok v
  | k + 1, v => do
    let i := lowerDelimiter + (k + 1)
    let e ← read v i
    let v ← moveTag accessedAge e.tag (size - 1 - i) i v
    mergeLoop accessedAge size lowerDelimiter k v

/-- Ages the elements in front of the cursor and shifts them to the right. -/
def shiftLoop : ℕ → List AgedTag → Except Fault (List AgedTag)
  | 0, v => .ok v
  | i + 1, v => do
    let e ← read v i
    shiftLoop i (← write v (i + 1) ⟨e.tag, toWay (e.age + 1)⟩)

/-- a1) Not found in `explicitTags` or found at age `ASSOCIATIVITY - 1`. -/
def makeRoomOldest (ageOfImplicitTags pos : ℕ) (v : List AgedTag) :
    Except Fault (ℕ × List AgedTag × List ℕ) := do
  let (size, evicted) ← oldestLoop T.associativity ageOfImplicitTags pos v v.length []
  .ok (size, resize v (size + 1) ⟨0, 0⟩, evicted)

/-- a2) Found at other ages. -/
def makeRoomYounger (accessedAge pos : ℕ) (v : List AgedTag) :
    Except Fault (ℕ × List AgedTag × List ℕ) := do
  let (lowerDelimiter, v) ← leftLoop accessedAge pos v
  let (upperDelimiter, v) ← rightLoop accessedAge (v.length - (pos + 1)) (pos + 1) v
  let v ← mergeLoop accessedAge v.length lowerDelimiter (upperDelimiter - lowerDelimiter) v
  .ok (lowerDelimiter, v, [])

/-- The position of the accessed element, whether there is one, and its age. -/
def findAccessed (s : LruMinAgeAbstractCache) (tag : ℕ) : Except Fault (ℕ × Bool × ℕ) := do
  let size := s.explicitTags.length
  let pos ← findIndex (fun e => decide (e.tag = tag)) s.explicitTags size 0
  if pos ≠ size ∧ 0 < size then .ok (pos, true, (← read s.explicitTags pos).age)
  else .ok (pos, false, s.ageOfImplicitTags)

/-- 1. Update implicitly modelled elements. -/
def nextAgeOfImplicitTags (accessedAge n : ℕ) : ℕ :=
  if n ≤ accessedAge ∧ n < T.associativity then toWay (n + 1) else n

/-- 2. Update explicitly modelled elements. -/
def makeRoom (found : Bool) (accessedAge ageOfImplicitTags pos : ℕ) (v : List AgedTag) :
    Except Fault (ℕ × List AgedTag × List ℕ) :=
  if !found || accessedAge == T.associativity - 1 then makeRoomOldest T ageOfImplicitTags pos v
  else makeRoomYounger accessedAge pos v

/-- b) and c): shift what is in front of the room and insert the accessed element. -/
def insertFront (tag simpleUpdatePos ageOfImplicitTags : ℕ) (v : List AgedTag) :
    Except Fault LruMinAgeAbstractCache := do
  let v ← shiftLoop simpleUpdatePos v
  let v ← write v 0 ⟨tag, 0⟩
  removeRedundantTags ⟨v, ageOfImplicitTags⟩

def update (s : LruMinAgeAbstractCache) (tag : ℕ) (wantReport : Bool)
    (_assumption : Classification) :
    Except Fault (LruMinAgeAbstractCache × Option UpdateReport) := do
  let (pos, found, accessedAge) ← findAccessed s tag
  let n := nextAgeOfImplicitTags T accessedAge s.ageOfImplicitTags
  let (simpleUpdatePos, v, evicted) ← makeRoom T found accessedAge n pos s.explicitTags
  let s' ← insertFront tag simpleUpdatePos n v
  let justEvictedUnknowns := decide (s.ageOfImplicitTags ≤ accessedAge ∧
    s.ageOfImplicitTags < T.associativity ∧ n = T.associativity)
  .ok (s', reportOf wantReport evicted justEvictedUnknowns false)

/-- `for (TagType t = lowTag; t <= highTag; t++)`: for the greatest tag the
counter wraps around and the loop does not end. -/
def tagRange (lowTag highTag : ℕ) : Except Fault (List AgedTag) :=
  if highTag = 2 ^ 32 - 1 then .error .divergence
  else .ok ((List.range' lowTag (highTag + 1 - lowTag)).map fun t => ⟨t, 0⟩)

/-- Puts `range` where its tags belong among the elements of age 0 and drops
other elements for these tags. -/
def insertRange (range : List AgedTag) (lowTag highTag : ℕ) : Bool → List AgedTag → List AgedTag
  | inserted, [] => if inserted then [] else range
  | inserted, info :: rest =>
    let insertHere := !inserted && (decide (0 < info.age) || decide (lowTag ≤ info.tag))
    (if insertHere then range else []) ++
      (if info.tag < lowTag ∨ highTag < info.tag then [info] else []) ++
      insertRange range lowTag highTag (inserted || insertHere) rest

def maxWorthwhileTags : ℕ := 4

def potentialUpdate (s : LruMinAgeAbstractCache) (itv : AddressInterval) (wantReport : Bool) :
    Except Fault (LruMinAgeAbstractCache × Option UpdateReport) :=
  if s.ageOfImplicitTags = 0 then do
    assertThat s.explicitTags.isEmpty "explicitTags.empty()"
    .ok (s, reportOf wantReport [] false false)
  else
    let lowTag := getTag T itv.lower
    let highTag := getTag T itv.upper
    if maxWorthwhileTags < toUnsigned (highTag - lowTag + 1) then
      .ok (⟨[], 0⟩, reportOf wantReport [] false true)
    else do
      let range ← tagRange lowTag highTag
      .ok ({ s with explicitTags := insertRange range lowTag highTag false s.explicitTags },
        reportOf wantReport [] false false)

def xElemIsLesser (x y : List AgedTag) (xIt yIt : ℕ) : Except Fault Bool :=
  if xIt = x.length then .ok false else if yIt = y.length then .ok true else do
    let e ← read x xIt
    let f ← read y yIt
    .ok (decide (e.age < f.age ∨ e.age = f.age ∧ e.tag ≤ f.tag))

/-- Outputs an element unless its tag was seen in the other operand. -/
def outputUnseen (z : List AgedTag) (i : ℕ) (seen res : List AgedTag) :
    Except Fault (List AgedTag) := do
  let joined ← read z i
  if joined.tag ∈ seen.map AgedTag.tag then .ok res else .ok (res ++ [joined])

def joinLoop (x y : List AgedTag) : ℕ → ℕ → ℕ → List AgedTag → Except Fault (List AgedTag)
  | 0, _, _, res => .ok res
  | fuel + 1, xIt, yIt, res => do
    if xIt = x.length ∧ yIt = y.length then .ok res
    else if ← xElemIsLesser x y xIt yIt then
      joinLoop x y fuel (xIt + 1) yIt (← outputUnseen x xIt (y.take yIt) res)
    else
      joinLoop x y fuel xIt (yIt + 1) (← outputUnseen y yIt (x.take xIt) res)

def join (x y : LruMinAgeAbstractCache) : Except Fault LruMinAgeAbstractCache := do
  let res ← joinLoop x.explicitTags y.explicitTags
    (x.explicitTags.length + y.explicitTags.length) 0 0 []
  removeRedundantTags ⟨res, min x.ageOfImplicitTags y.ageOfImplicitTags⟩

end LruMinAgeAbstractCache

end Llvmta
