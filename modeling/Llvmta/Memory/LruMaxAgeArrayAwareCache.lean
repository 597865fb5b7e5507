import Llvmta.Memory.AbstractCache
import Llvmta.Memory.ArrayAwareMustAges

/-!
# The array-aware must analysis

A cache set is described by a map from tags to ages with conflict sets. A precise
access ages the entries that are younger than the accessed one, an access to an
array ages each entry on its own.
-/

namespace Llvmta

open Checked

/-- `std::map<TagType, std::unique_ptr<MustAge<T>>> ages`, in the order of the tags. -/
structure LruMaxAgeArrayAwareCache where
  ages : List (ℕ × MustAge)
  deriving DecidableEq, Repr

namespace LruMaxAgeArrayAwareCache

variable (T : CacheTraits) (P : StaticAddressProvider) (kind : ArrayMustAnaType)

def new (_assumeAnEmptyCache : Bool) : LruMaxAgeArrayAwareCache := ⟨[]⟩

/-- `ages.find(tag)` -/
def find? (s : LruMaxAgeArrayAwareCache) (tag : ℕ) : Option MustAge :=
  (s.ages.find? fun e => e.1 == tag).map Prod.snd

/-- `getMaxAge(tag)` -/
def getMaxAge (s : LruMaxAgeArrayAwareCache) (tag : ℕ) : Except Fault ℕ :=
  match s.find? tag with
  | some m => m.getAge T
  | none => .ok T.associativity

def classify (s : LruMaxAgeArrayAwareCache) (addr : AbstractAddress) :
    Except Fault Classification := do
  let tag ← getTagOf T addr
  assertThat (decide (s.ages.length ≤ T.associativity)) "size <= T->ASSOCIATIVITY"
  if (s.find? tag).isSome then .ok .clHit
  else if s.ages.length = T.associativity then .ok .clMiss
  else .ok .clUnknown

/-- The loop of both updates: each entry is replaced by its aged one, or erased. -/
def ageEntries (ageEntry : MustAge → Except Fault (Option MustAge)) :
    List (ℕ × MustAge) → Except Fault (List (ℕ × MustAge) × List ℕ)
  | [] => .ok ([], [])
  | (tag, m) :: rest => do
    let aged ← ageEntry m
    let (kept, evicted) ← ageEntries ageEntry rest
    match aged with
    | some m' => .ok ((tag, m') :: kept, evicted)
    | none => .ok (kept, tag :: evicted)

/-- An entry that may have been evicted is erased. -/
def keepCached (m : MustAge) : Option MustAge := if m.isAssociativity T then none else some m

/-- How an access somewhere into an array, or to an unknown address, ages an entry. -/
def agePotentially (array : Option GlobalVariable) (m : MustAge) :
    Except Fault (Option MustAge) := do
  let aged ← match array with
    | some arr => m.ageByArray T P arr
    | none => m.ageBy T 1
  .ok (keepCached T aged)

/-- How an access to an entry of age `accessedAge` ages another one. -/
def ageYounger (accessedAge : ℕ) (m : MustAge) : Except Fault (Option MustAge) := do
  let age ← m.getAge T
  if accessedAge ≤ age then .ok (some m)
  else do
    let aged ← m.ageBy T 1
    .ok (keepCached T aged)

def report (wantReport : Bool) (evicted : List ℕ) : Option UpdateReport :=
  if wantReport then some (.lruMaxAge evicted) else none

def potentialUpdate (s : LruMaxAgeArrayAwareCache) (addr : AbstractAddress)
    (_load_store : AccessType) (wantReport : Bool) :
    Except Fault (LruMaxAgeArrayAwareCache × Option UpdateReport) := do
  let (kept, evicted) ← ageEntries (agePotentially T P addr.getArray) s.ages
  .ok (⟨kept⟩, report wantReport evicted)

/-- `ages[tag] = m` -/
def assign (tag : ℕ) (m : MustAge) : List (ℕ × MustAge) → List (ℕ × MustAge)
  | [] => [(tag, m)]
  | (t, n) :: rest =>
    if tag < t then (tag, m) :: (t, n) :: rest
    else if tag = t then (tag, m) :: rest
    else (t, n) :: assign tag m rest

/-- The age up to which other entries are aged by an access to `tag`. -/
def accessedAge (s : LruMaxAgeArrayAwareCache) (tag : ℕ) (assumption : Classification) :
    Except Fault ℕ :=
  match s.find? tag with
  | some m => m.getAge T
  | none =>
    if assumption = .clHit then .ok (toWay (toUnsigned (T.associativity + 2 ^ 32 - 1)))
    else .ok (toWay T.associativity)

def update (s : LruMaxAgeArrayAwareCache) (addr : AbstractAddress) (_load_store : AccessType)
    (wantReport : Bool) (assumption : Classification) :
    Except Fault (LruMaxAgeArrayAwareCache × Option UpdateReport) := do
  let tag ← getTagOf T addr
  let age ← s.accessedAge T tag assumption
  let (kept, evicted) ← ageEntries (ageYounger T age) s.ages
  .ok (⟨assign tag .make kept⟩, report wantReport evicted)

/-- The loop over both maps: only common tags stay, unless their join is evicted. -/
def joinEntries : List (ℕ × MustAge) → List (ℕ × MustAge) → Except Fault (List (ℕ × MustAge))
  | [], _ => .ok []
  | _ :: _, [] => .ok []
  | (t, m) :: xs, (u, n) :: ys =>
    if t < u then joinEntries xs ((u, n) :: ys)
    else if u < t then joinEntries ((t, m) :: xs) ys
    else do
      let joined ← m.join T kind n
      let rest ← joinEntries xs ys
      if joined.isAssociativity T then .ok rest else .ok ((t, joined) :: rest)
termination_by xs ys => xs.length + ys.length

def join (x y : LruMaxAgeArrayAwareCache) : Except Fault LruMaxAgeArrayAwareCache := do
  let ages ← joinEntries T kind x.ages y.ages
  .ok ⟨ages⟩

end LruMaxAgeArrayAwareCache

end Llvmta
