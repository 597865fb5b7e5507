import Llvmta.Library.CheckedVector
import Llvmta.Memory.StaticAddressProvider

/-!
# Ages with conflict sets

An age of the array-aware must analysis is a bound on the position of a line
together with the multiset of arrays whose accesses the bound has accounted for.
An array that has been counted as often as it has lines in the set is not counted
again. The two kinds of ages differ in their joins.
-/

namespace Llvmta

open Checked

/-- The kinds of conflict sets with a single age bound. -/
inductive ArrayMustAnaType where
  | conflictSetIntersect
  | conflictSetUnion
  deriving DecidableEq, Repr

/-- `MustAgeConflictSet`; the multiset of arrays is given in its iteration order. -/
structure MustAge where
  age : ℕ
  arrayAccesses : List GlobalVariable
  deriving DecidableEq, Repr

namespace MustAge

variable (T : CacheTraits) (P : StaticAddressProvider)

/-- `MustAge<T>::make()` -/
def make : MustAge := ⟨0, []⟩

/-- The element might have been evicted. -/
def isAssociativity (m : MustAge) : Bool := m.age == T.associativity

def getAge (m : MustAge) : Except Fault ℕ := do
  assertThat (!m.isAssociativity T) "!this->isAssociativity()"
  .ok (toWay m.age)

/-- `ageBy(unsigned amount)` -/
def ageBy (m : MustAge) (amount : ℕ) : Except Fault MustAge := do
  assertThat (!m.isAssociativity T) "!this->isAssociativity()"
  if toUnsigned (T.associativity + 2 ^ 32 - amount) ≤ m.age then
    .ok ⟨toWay T.associativity, []⟩
  else .ok { m with age := toWay (m.age + amount) }

/-- `ageBy(const GlobalVariable *var)` -/
def ageByArray (m : MustAge) (var : GlobalVariable) : Except Fault MustAge :=
  if m.arrayAccesses.count var < getPerSetSize T P var then
    ageBy T { m with arrayAccesses := m.arrayAccesses.orderedInsert (· ≤ ·) var } 1
  else .ok m

/-- The maximum of the ages and the intersection of the conflict sets. -/
def joinIntersect (m other : MustAge) : Except Fault MustAge := do
  assertThat (!m.isAssociativity T && !other.isAssociativity T)
    "!this->isAssociativity() && !other.isAssociativity()"
  .ok ⟨max m.age other.age, m.arrayAccesses.bagInter other.arrayAccesses⟩

/-- One iteration of the walk over both conflict sets: an array of `ys` only is
inserted and ages `m`, an array of `xs` only ages the other side. -/
def unionStep (xs ys : List GlobalVariable) (m : MustAge) (adjustedYAge : ℕ) :
    List GlobalVariable × List GlobalVariable × MustAge × ℕ :=
  match xs, ys with
  | [], [] => ([], [], m, adjustedYAge)
  | _ :: xs, [] => (xs, [], m, toWay (adjustedYAge + 1))
  | [], y :: ys =>
    ([], ys, ⟨toWay (m.age + 1), m.arrayAccesses.orderedInsert (· ≤ ·) y⟩, adjustedYAge)
  | x :: xs, y :: ys =>
    if x < y then (xs, y :: ys, m, toWay (adjustedYAge + 1))
    else if y < x then
      (x :: xs, ys, ⟨toWay (m.age + 1), m.arrayAccesses.orderedInsert (· ≤ ·) y⟩, adjustedYAge)
    else (xs, ys, m, adjustedYAge)

/-- The walk ends early when one side may be evicted. Each iteration passes an
array, so that `n` is their number. -/
def unionLoop : (n : ℕ) → (xs ys : List GlobalVariable) → MustAge → (adjustedYAge : ℕ) →
    MustAge × ℕ
  | 0, _, _, m, adjustedYAge => (m, adjustedYAge)
  | n + 1, xs, ys, m, adjustedYAge =>
    let (xs', ys', m', adjustedYAge') := unionStep xs ys m adjustedYAge
    if m'.age = T.associativity ∨ adjustedYAge' = T.associativity then (m', adjustedYAge')
    else unionLoop n xs' ys' m' adjustedYAge'

/-- The union of the conflict sets, with both ages adjusted to it. -/
def joinUnion (m other : MustAge) : Except Fault MustAge := do
  let adjustedYAge ← other.getAge T
  let (m', adjustedYAge) := unionLoop T (m.arrayAccesses.length + other.arrayAccesses.length)
    m.arrayAccesses other.arrayAccesses m adjustedYAge
  let age := max m'.age adjustedYAge
  .ok ⟨age, if age = T.associativity then [] else m'.arrayAccesses⟩

def join (kind : ArrayMustAnaType) (m other : MustAge) : Except Fault MustAge :=
  match kind with
  | .conflictSetIntersect => joinIntersect T m other
  | .conflictSetUnion => joinUnion T m other

end MustAge

end Llvmta
