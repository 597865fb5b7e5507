import Llvmta.Library.LexicographicWalk
import Llvmta.Memory.MultiScopePersistence
import Mathlib.Data.Finset.Sort

/-!
# Comparisons of persistence states

The counting analyses compare conflict sets by their stored data. Element-wise counting is
equal to another state if each is less or equal to the other, and less or equal is decided by
a join. The order of the states of several scopes skips the scopes whose states are equal in
this sense.
-/

namespace Llvmta

open Checked

namespace SetWiseCountingPersistence

/-- `operator==` -/
def equals (x y : SetWiseCountingPersistence) : Bool :=
  if x.r ≠ y.r then false
  else if x.top || y.top then x.top == y.top
  else decide (x.accessedBlocks = y.accessedBlocks) && decide (x.accessedArrays = y.accessedArrays)

def lessequal (T : CacheTraits) (P : StaticAddressProvider) (mode : ArrayPersistenceAnaType)
    (x y : SetWiseCountingPersistence) : Except Fault Bool := do
  let copy ← x.join T P mode y
  .ok (copy.equals y)

/-- `Block::operator<` compares the tags first and then the arrays around. -/
def blockKey (b : Block) : ℕ ×ₗ List GlobalVariable := toLex (b.tag, b.surroundingArrays)

/-- The blocks in the order of the set. -/
def orderedBlocks (s : SetWiseCountingPersistence) : List (ℕ ×ₗ List GlobalVariable) :=
  (s.accessedBlocks.image blockKey).sort (· ≤ ·)

/-- `operator<` -/
def less (x y : SetWiseCountingPersistence) : Bool :=
  if x.r ≠ y.r then decide (x.r < y.r)
  else if x.top || y.top then !x.top
  else if x.accessedBlocks ≠ y.accessedBlocks then
    decide (x.orderedBlocks < y.orderedBlocks)
  else if x.accessedArrays ≠ y.accessedArrays then
    decide (x.accessedArrays < y.accessedArrays)
  else false

end SetWiseCountingPersistence

namespace ElementWiseCountingPersistence

variable (T : CacheTraits) (P : StaticAddressProvider) (mode : ArrayPersistenceAnaType)

/-- The loop of `lessequal` over the conflict sets. -/
def lessequalEntries (y : OrderedMap ℕ SetWiseCountingPersistence) :
    List (ℕ × SetWiseCountingPersistence) → Except Fault Bool
  | [] => .ok true
  | e2c :: rest =>
    match y.find? e2c.1 with
    | none => .ok false
    | some t => do
      if ← e2c.2.lessequal T P mode t then lessequalEntries y rest else .ok false

def lessequal (x y : ElementWiseCountingPersistence) : Except Fault Bool :=
  lessequalEntries T P mode y.ele2conflicts x.ele2conflicts.entries

/-- `operator==` -/
def equals (x y : ElementWiseCountingPersistence) : Except Fault Bool := do
  if ← x.lessequal T P mode y then y.lessequal T P mode x else .ok false

/-- What a pair of conflict sets decides. -/
def compareEntries (it1 it2 : ℕ × SetWiseCountingPersistence) : Option Bool :=
  if it1.1 ≠ it2.1 then some (decide (it1.1 < it2.1))
  else if !it1.2.equals it2.2 then some (it1.2.less it2.2)
  else none

/-- `operator<` -/
def less (x y : ElementWiseCountingPersistence) : Bool :=
  if x.ele2conflicts.entries.length ≠ y.ele2conflicts.entries.length then
    decide (x.ele2conflicts.entries.length < y.ele2conflicts.entries.length)
  else Lexicographic.walk compareEntries x.ele2conflicts.entries y.ele2conflicts.entries

end ElementWiseCountingPersistence

/-- The comparisons of the analysis `P` of `MultiScopePersistence`. -/
structure PersistenceOrder (σ : Type) where
  lessequal : σ → σ → Except Fault Bool
  equals : σ → σ → Except Fault Bool
  less : σ → σ → Bool

def elementWiseOrder (T : CacheTraits) (P : StaticAddressProvider)
    (mode : ArrayPersistenceAnaType) : PersistenceOrder ElementWiseCountingPersistence where
  lessequal x y := x.lessequal T P mode y
  equals x y := x.equals T P mode y
  less x y := x.less y

namespace MultiScopePersistence

variable {σ : Type} (O : PersistenceOrder σ)

/-- The loop over the scopes of both states, until the analyses of one do not compare. -/
def compareScopes (compare : σ → σ → Except Fault Bool) (message : String) :
    List (ℕ × σ) → List (ℕ × σ) → Except Fault Bool
  | it1 :: rest1, it2 :: rest2 => do
    assertThat (it1.1 == it2.1) message
    if ← compare it1.2 it2.2 then compareScopes compare message rest1 rest2 else .ok false
  | _, _ => .ok true

def lessequal (m y : MultiScopePersistence σ) : Except Fault Bool := do
  assertThat (m.scopes2info.entries.length == y.scopes2info.entries.length)
    "Different #of scopes at lessequal"
  assertThat (m.scopes2entercount.entries.map Prod.snd == y.scopes2entercount.entries.map Prod.snd)
    "Comparing two same scopes that have been entered differently often."
  compareScopes O.lessequal "Encountered differrent scopes at lessequal."
    m.scopes2info.entries y.scopes2info.entries

/-- `operator==` -/
def equals (m y : MultiScopePersistence σ) : Except Fault Bool := do
  assertThat (m.scopes2info.entries.length == y.scopes2info.entries.length)
    "Different #of scopes at equal"
  assertThat (m.scopes2entercount.entries.map Prod.snd == y.scopes2entercount.entries.map Prod.snd)
    "Joining two same scopes that have been entered differently often."
  compareScopes O.equals "Encountered differrent scopes at equal."
    m.scopes2info.entries y.scopes2info.entries

/-- `scopes2entercount.at(scope)` -/
def entercountAt (m : MultiScopePersistence σ) (scope : ℕ) : Except Fault ℕ :=
  match m.scopes2entercount.find? scope with
  | some count => .ok count
  | none => .error .outOfBounds

/-- What the scopes of both iterators decide. -/
def stepLess (m y : MultiScopePersistence σ) (it1 it2 : ℕ × σ) : Except Fault (Option Bool) :=
  if it1.1 ≠ it2.1 then .ok (some (decide (it1.1 < it2.1)))
  else do
    if !(← O.equals it1.2 it2.2) then .ok (some (O.less it1.2 it2.2))
    else
      let count1 ← m.entercountAt it1.1
      let count2 ← y.entercountAt it2.1
      if count1 ≠ count2 then .ok (some (decide (count1 < count2))) else .ok none

/-- `operator<` -/
def less (m y : MultiScopePersistence σ) : Except Fault Bool :=
  if m.scopes2info.entries.length ≠ y.scopes2info.entries.length then
    .ok (decide (m.scopes2info.entries.length < y.scopes2info.entries.length))
  else Lexicographic.walkM (stepLess O m y) m.scopes2info.entries y.scopes2info.entries

end MultiScopePersistence

end Llvmta
