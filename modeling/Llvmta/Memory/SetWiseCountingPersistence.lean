import Llvmta.Library.BudgetCover
import Llvmta.Library.CollectingRun
import Llvmta.Library.LruPath
import Llvmta.Memory.AbstractCache
import Llvmta.Memory.StaticAddressProvider

/-!
# Set-wise counting persistence

The analysis of a cache set collects the blocks accessed since the scope was
entered and, for accesses somewhere into an array, a multiset of arrays. As long
as both together are no more than `ASSOCIATIVITY`, nothing loaded in the scope
can have been evicted. An array is counted at most as often as it has blocks in
the set that are not collected themselves.
-/

namespace Llvmta

open Checked Lru

inductive ArrayPersistenceAnaType where
  | none
  | setwise
  deriving DecidableEq, Repr

/-- A memory block, with the arrays of more than one line it is part of. -/
structure Block where
  tag : ℕ
  surroundingArrays : List GlobalVariable
  deriving DecidableEq, Repr

/-- The sets of the analysis; `accessedArrays` is a multiset in its iteration order. -/
structure SetWiseCountingPersistence where
  r : ℕ
  top : Bool
  accessedBlocks : Finset Block
  accessedArrays : List GlobalVariable
  deriving DecidableEq

section Model

variable (T : CacheTraits) (P : StaticAddressProvider) (mode : ArrayPersistenceAnaType)

/-- The arrays of more than one line that contain the line at `address`. -/
def arraysAround (address : ℕ) : List GlobalVariable :=
  P.getGlobalVariables.filter fun arr =>
    let start := P.getGlobalVarAddress arr
    let last := toUnsigned (start + P.getArraySize arr - 1)
    let startLine := getCachelineAddress T start
    let endLine := getCachelineAddress T last
    startLine != endLine && decide (startLine ≤ address) && decide (address ≤ endLine)

/-- `Block(addr)` -/
def Block.new (addr : AbstractAddress) : Except Fault Block := do
  assertThat addr.isPrecise "addr.isPrecise()"
  let address := getCachelineAddress T addr.getAsInterval.lower
  let tag := getTag T address
  match mode with
  | .none => .ok ⟨tag, []⟩
  | .setwise =>
    assertThat (decide ((arraysAround T P address).Pairwise (· ≤ ·)))
      "std::is_sorted(surroundingArrays.begin(), surroundingArrays.end())"
    .ok ⟨tag, arraysAround T P address⟩

namespace SetWiseCountingPersistence

/-- A fresh analysis; `addr` is the reference whose set is analysed, if known. -/
def new (addr : ℕ) : SetWiseCountingPersistence := ⟨addr, false, ∅, []⟩

def gotoTop (s : SetWiseCountingPersistence) : SetWiseCountingPersistence :=
  { s with top := true, accessedBlocks := ∅, accessedArrays := [] }

/-- `accessedBlocks.size() + accessedArrays.size()` -/
def size (s : SetWiseCountingPersistence) : ℕ := s.accessedBlocks.card + s.accessedArrays.length

/-- The blocks of an array in the set that are not collected themselves. -/
def getPerArrayBound (s : SetWiseCountingPersistence) (array : GlobalVariable) : Except Fault ℕ := do
  let bound : ℤ := (BitVec.ofNat 32 (getPerSetSize T P array)).toInt -
    ∑ b ∈ s.accessedBlocks, (b.surroundingArrays.count array : ℤ)
  assertThat (decide (0 ≤ bound)) "bound >= 0"
  .ok bound.toNat

def classify (_s : SetWiseCountingPersistence) (_addr : AbstractAddress) : Classification :=
  .clUnknown

/-- `wantReport ? new UpdateReport : nullptr` -/
def report (wantReport : Bool) : Option UpdateReport := if wantReport then some .generic else none

/-- The state after an access somewhere into `array`. -/
def countArray (s : SetWiseCountingPersistence) (array : GlobalVariable) :
    Except Fault SetWiseCountingPersistence := do
  let bound ← s.getPerArrayBound T P array
  if s.accessedArrays.count array < bound then
    if T.associativity < s.size then .ok s.gotoTop
    else .ok { s with accessedArrays := s.accessedArrays.orderedInsert (· ≤ ·) array }
  else .ok s

def potentialUpdate (s : SetWiseCountingPersistence) (addr : AbstractAddress)
    (_load_store : AccessType) (wantReport : Bool) :
    Except Fault (SetWiseCountingPersistence × Option UpdateReport) :=
  if s.top then .ok (s, report wantReport)
  else match mode, addr.getArray with
    | .setwise, some array => do
      let s' ← s.countArray T P array
      .ok (s', report wantReport)
    | _, _ => .ok (s.gotoTop, report wantReport)

/-- The state after an access to a block. -/
def insertBlock (s : SetWiseCountingPersistence) (b : Block) : SetWiseCountingPersistence :=
  let s' := { s with accessedBlocks := insert b s.accessedBlocks }
  if b ∉ s.accessedBlocks ∧ T.associativity < s'.size then s'.gotoTop else s'

/-- `assert(getindex<T>(r) == getindex<T>(addr))`, for a known reference. -/
def checkIndex (s : SetWiseCountingPersistence) (addr : AbstractAddress) : Except Fault Unit :=
  if s.r ≠ 0 then do
    let index ← getindexOf T addr
    assertThat (getindex T s.r == index) "getindex<T>(r) == getindex<T>(addr)"
  else .ok ()

def update (s : SetWiseCountingPersistence) (addr : AbstractAddress) (_load_store : AccessType)
    (wantReport : Bool) (_assumption : Classification) :
    Except Fault (SetWiseCountingPersistence × Option UpdateReport) :=
  if s.top then .ok (s, report wantReport)
  else do
    s.checkIndex T addr
    let b ← Block.new T P mode addr
    .ok (s.insertBlock T b, report wantReport)

/-- Erases the arrays that are counted more often than `bound`: the loop over the
multiset, `kept` being the part before the iterator. -/
def honorBound (bound : GlobalVariable → Except Fault ℕ) :
    (kept rest : List GlobalVariable) → Except Fault (List GlobalVariable)
  | kept, [] => .ok kept
  | kept, array :: rest => do
    if (← bound array) < (kept ++ array :: rest).count array then honorBound bound kept rest
    else honorBound bound (kept ++ [array]) rest

/-- The maximum of both multisets of arrays, within the bounds of the joined blocks. -/
def joinArrays (x : SetWiseCountingPersistence) (ys : List GlobalVariable) :
    Except Fault (List GlobalVariable) :=
  match mode with
  | .none => .ok x.accessedArrays
  | .setwise =>
    let toAdd := ys.diff x.accessedArrays
    honorBound (x.getPerArrayBound T P) []
      (toAdd.foldl (fun arrays array => arrays.orderedInsert (· ≤ ·) array) x.accessedArrays)

/-- `if (accessedBlocks.size() + accessedArrays.size() > ASSOCIATIVITY) gotoTop();` -/
def checkSize (s : SetWiseCountingPersistence) : SetWiseCountingPersistence :=
  if T.associativity < s.size then s.gotoTop else s

def join (x y : SetWiseCountingPersistence) : Except Fault SetWiseCountingPersistence :=
  if x.top || y.top then .ok x.gotoTop
  else do
    let blocks := { x with accessedBlocks := x.accessedBlocks ∪ y.accessedBlocks }
    let arrays ← blocks.joinArrays T P mode y.accessedArrays
    .ok (checkSize T { blocks with accessedArrays := arrays })

/-- The options that decide whether other cores share the cache. -/
structure SharedOptions where
  sPersistenceA : Bool
  coreNums : ℕ
  multicore : Multicore

/-- For a shared cache, the conflicts with other cores are added to the count. -/
def isPersistent (O : SharedOptions) (s : SetWiseCountingPersistence) (tag : ℕ) : Bool :=
  if O.sPersistenceA ∧ 0 < O.coreNums ∧ 1 < T.level then
    !s.top && decide (s.size + O.multicore.conflicts T tag (getindex T s.r) ≤ T.associativity)
  else !s.top

end SetWiseCountingPersistence

end Model

end Llvmta
