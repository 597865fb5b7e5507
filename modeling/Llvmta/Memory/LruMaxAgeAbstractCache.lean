import Llvmta.Library.CheckedVector
import Llvmta.Memory.AgedTag

/-!
# The must analysis of a cache set

`LruMaxAgeAbstractCache` keeps `size` tags with upper bounds on their ages in
two arrays of `ASSOCIATIVITY` elements. The operations work on the arrays in
place; their loops are modelled as recursions on the cursor, every read and
write being checked. `Holds` relates the arrays to the list of entries they
store, and each operation has one lemma that says what it does to that list.
-/

namespace Llvmta

open Checked

@[ext] structure LruMaxAgeAbstractCache where
  tags : List ℕ
  ages : List ℕ
  size : ℕ
  deriving DecidableEq, Repr

namespace LruMaxAgeAbstractCache

variable (T : CacheTraits)

def new (_assumeAnEmptyCache : Bool) : LruMaxAgeAbstractCache :=
  ⟨List.replicate T.associativity 0, List.replicate T.associativity 0, 0⟩

/-- The loop over the entries that looks for a tag; `size` if there is none. -/
def search (tags : List ℕ) (tag size : ℕ) : Except Fault ℕ :=
  findIndex (fun t => decide (t = tag)) tags size 0

def classify (M : Multicore) (s : LruMaxAgeAbstractCache) (tag index : ℕ) :
    Except Fault Classification := do
  let CNN := M.conflicts T tag index
  let i ← search s.tags tag s.size
  if i < s.size then
    if T.associativity ≤ toUnsigned ((← read s.ages i) + CNN) then .ok .clMiss else .ok .clHit
  else if s.size = T.associativity then .ok .clMiss
  else .ok .clUnknown

/-- The loop that drops the entries of age `ASSOCIATIVITY - 1` at the end. It
returns the cursor and the evicted tags with the state. -/
def evictOldest (A : ℕ) :
    ℕ → LruMaxAgeAbstractCache → List ℕ → Except Fault (ℕ × LruMaxAgeAbstractCache × List ℕ)
  | 0, s, evicted => .ok (0, s, evicted)
  | pos + 1, s, evicted => do
    if (← read s.ages pos) = A - 1 then
      let tag ← read s.tags pos
      evictOldest A pos { s with size := toWay (s.size + 255) } (tag :: evicted)
    else .ok (pos + 1, s, evicted)

/-- Ages every entry in front of the cursor by one. -/
def ageAll : ℕ → List ℕ → Except Fault (List ℕ)
  | 0, ages => .ok ages
  | pos + 1, ages => do
    let age ← read ages pos
    ageAll pos (← write ages pos (toWay (age + 1)))

def reportOf (wantReport : Bool) (evicted : List ℕ) : Option UpdateReport :=
  if wantReport then some (.lruMaxAge evicted) else none

def potentialUpdate (s : LruMaxAgeAbstractCache) (wantReport : Bool) :
    Except Fault (LruMaxAgeAbstractCache × Option UpdateReport) := do
  let (pos, s, evicted) ← evictOldest T.associativity s.size s []
  let ages ← ageAll pos s.ages
  .ok ({ s with ages }, reportOf wantReport evicted)

/-- Moves `currentTag` to the right past the smaller tags of the same age; `n`
entries are right of the cursor `i`. -/
def mergeEqual (ages : List ℕ) (accessedAge currentTag : ℕ) :
    ℕ → ℕ → List ℕ → Except Fault (List ℕ)
  | 0, i, tags => write tags i currentTag
  | n + 1, i, tags => do
    if (← read ages (i + 1)) = accessedAge then
      let tag ← read tags (i + 1)
      if tag < currentTag then
        mergeEqual ages accessedAge currentTag n (i + 1) (← write tags i tag)
      else write tags i currentTag
    else write tags i currentTag

/-- Elements that were exactly one access younger than `accessedAge` have to be
merged into the tags of that age. -/
def keepSorted (accessedAge size pos : ℕ) (ages tags : List ℕ) : Except Fault (List ℕ) := do
  let age ← read ages pos
  let currentTag ← read tags pos
  if age = accessedAge then mergeEqual ages accessedAge currentTag (size - 1 - pos) pos tags
  else .ok tags

/-- Shifts the entries in front of the cursor to the right, ages those younger
than `accessedAge` and keeps the order. -/
def shiftRight (accessedAge size : ℕ) :
    ℕ → List ℕ → List ℕ → Except Fault (List ℕ × List ℕ)
  | 0, tags, ages => .ok (tags, ages)
  | pos + 1, tags, ages => do
    let tag ← read tags pos
    let tags ← write tags (pos + 1) tag
    let age ← read ages pos
    let ages ← write ages (pos + 1) (toWay (age + if age < accessedAge then 1 else 0))
    let tags ← keepSorted accessedAge size (pos + 1) ages tags
    shiftRight accessedAge size pos tags ages

/-- The assumptions under which `update` treats an absent tag as a hit. -/
def assumesHit (assumption : Classification) : Bool :=
  assumption == .clHit || (decide (1 < T.level) && assumption == .cl2Hit)

/-- The accessed age and the cursor after making room for the accessed tag. -/
def makeRoom (s : LruMaxAgeAbstractCache) (pos accessedAge : ℕ) (assumption : Classification) :
    Except Fault (ℕ × ℕ × LruMaxAgeAbstractCache × List ℕ) := do
  if accessedAge = T.associativity then
    let s := { s with size := toWay (s.size + 1) }
    if assumesHit T assumption then
      assertThat (s.size ≤ T.associativity)
        "Full cache and addr not in there, cannot assume a hit (illegal classification)"
      .ok (toWay (T.associativity - 1), pos, s, [])
    else
      let (pos, s, evicted) ← evictOldest T.associativity pos s []
      .ok (accessedAge, pos, s, evicted)
  else .ok (accessedAge, pos, s, [])

/-- The accessed age before the assumption is taken into account. -/
def ageAt (s : LruMaxAgeAbstractCache) (pos : ℕ) : Except Fault ℕ :=
  if pos < s.size then read s.ages pos else .ok (toWay T.associativity)

/-- Only if not direct-mapped there is something to shift. -/
def shiftEntries (accessedAge size pos : ℕ) (tags ages : List ℕ) :
    Except Fault (List ℕ × List ℕ) :=
  if 1 < T.associativity then shiftRight accessedAge size pos tags ages else .ok (tags, ages)

def insertFront (s : LruMaxAgeAbstractCache) (tag pos accessedAge : ℕ) :
    Except Fault LruMaxAgeAbstractCache := do
  let (tags, ages) ← shiftEntries T accessedAge s.size pos s.tags s.ages
  let tags ← write tags 0 tag
  let ages ← write ages 0 0
  assertThat (s.size ≤ T.associativity) "Illegal must cache set size"
  .ok ⟨tags, ages, s.size⟩

def update (s : LruMaxAgeAbstractCache) (tag : ℕ) (wantReport : Bool)
    (assumption : Classification) :
    Except Fault (LruMaxAgeAbstractCache × Option UpdateReport) := do
  let pos ← search s.tags tag s.size
  let accessedAge ← ageAt T s pos
  let (accessedAge, pos, s, evicted) ← makeRoom T s pos accessedAge assumption
  let s ← insertFront T s tag pos accessedAge
  .ok (s, reportOf wantReport evicted)

def getMaxAge (s : LruMaxAgeAbstractCache) (tag : ℕ) : Except Fault ℕ := do
  let i ← search s.tags tag s.size
  if i < s.size then read s.ages i else .ok T.associativity

/-- The age of a tag, read as a signed byte. -/
def getAge (s : LruMaxAgeAbstractCache) (tag : ℕ) : Except Fault ℤ := do
  let i ← search s.tags tag s.size
  if i < s.size then
    let age ← read s.ages i
    .ok (if T.associativity ≤ age then intMax else (BitVec.ofNat 8 age).toInt)
  else .ok intMax

/-- The output arrays of `join`, filled from the back; `out` elements are free. -/
structure JoinBuffer where
  outTags : List ℕ
  outAges : List ℕ
  out : ℕ

def xElemIsGreater (x y : LruMaxAgeAbstractCache) (xIn yIn : ℕ) : Except Fault Bool :=
  if xIn = 0 then .ok false else if yIn = 0 then .ok true else do
    let xAge ← read x.ages (xIn - 1)
    let yAge ← read y.ages (yIn - 1)
    let xTag ← read x.tags (xIn - 1)
    let yTag ← read y.tags (yIn - 1)
    .ok (decide (yAge < xAge ∨ xAge = yAge ∧ yTag ≤ xTag))

/-- Outputs the last of the first `n` entries of `z` if its tag is searched
with success. -/
def outputLast (z : LruMaxAgeAbstractCache) (n : ℕ) (searched : List ℕ) (b : JoinBuffer) :
    Except Fault JoinBuffer := do
  let joinedAge ← read z.ages (n - 1)
  let tag ← read z.tags (n - 1)
  if tag ∈ searched then
    if b.out = 0 then .error .outOfBounds else
      let outTags ← write b.outTags (b.out - 1) tag
      let outAges ← write b.outAges (b.out - 1) joinedAge
      .ok ⟨outTags, outAges, b.out - 1⟩
  else .ok b

/-- The loop of `join`; `xIn` and `yIn` entries of the operands are left, and
one of them is consumed in each of the at most `fuel` rounds. -/
def joinLoop (x y : LruMaxAgeAbstractCache) :
    ℕ → ℕ → ℕ → JoinBuffer → Except Fault JoinBuffer
  | 0, _, _, b => .ok b
  | fuel + 1, xIn, yIn, b => do
    if xIn = 0 ∧ yIn = 0 then .ok b
    else if ← xElemIsGreater x y xIn yIn then
      joinLoop x y fuel (xIn - 1) yIn (← outputLast x xIn (y.tags.take yIn) b)
    else
      joinLoop x y fuel xIn (yIn - 1) (← outputLast y yIn (x.tags.take xIn) b)

def join (x y : LruMaxAgeAbstractCache) : Except Fault LruMaxAgeAbstractCache := do
  let blank := List.replicate T.associativity 0
  let b ← joinLoop x y (x.size + y.size) x.size y.size ⟨blank, blank, T.associativity⟩
  let size := toWay (T.associativity - b.out)
  .ok ⟨(b.outTags.drop b.out).take size ++ x.tags.drop size,
    (b.outAges.drop b.out).take size ++ x.ages.drop size, size⟩

end LruMaxAgeAbstractCache

end Llvmta
