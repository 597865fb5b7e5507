import Llvmta.Library.OrderedMap
import Llvmta.Memory.SetWiseCountingPersistence

/-!
# Persistence for each scope and for each element

`MultiScopePersistence` runs a persistence analysis for every scope that has been
entered, starting it afresh with `P()`. `ElementWiseCountingPersistence` is such an
analysis: it counts the blocks accessed since each tag was, with one set-wise
analysis for every tag, which knows the reference it was started for.
-/

namespace Llvmta

open Checked

/-! ## ElementWiseCountingPersistence -/

/-- The array `arry2conflicts`, which nothing fills or reads, is left out. -/
structure ElementWiseCountingPersistence where
  ele2conflicts : OrderedMap ℕ SetWiseCountingPersistence
  deriving DecidableEq

namespace ElementWiseCountingPersistence

variable (T : CacheTraits) (P : StaticAddressProvider) (mode : ArrayPersistenceAnaType)

def new : ElementWiseCountingPersistence := ⟨.empty⟩

def potentialUpdate (e : ElementWiseCountingPersistence) (addr : AbstractAddress)
    (load_store : AccessType) (wantReport : Bool) :
    Except Fault (ElementWiseCountingPersistence × Option UpdateReport) := do
  let ele2conflicts ← (e.ele2conflicts.mapValues fun _ s =>
    Prod.fst <$> s.potentialUpdate T P mode addr load_store false).sequence
  .ok (⟨ele2conflicts⟩, SetWiseCountingPersistence.report wantReport)

def update (e : ElementWiseCountingPersistence) (addr : AbstractAddress)
    (load_store : AccessType) (wantReport : Bool) (_assumption : Classification) :
    Except Fault (ElementWiseCountingPersistence × Option UpdateReport) := do
  let tag ← getTagOf T addr
  let restarted := e.ele2conflicts.insert tag (.new addr.getAsInterval.lower)
  let ele2conflicts ← (restarted.mapValues fun _ s =>
    Prod.fst <$> s.update T P mode addr load_store false .clUnknown).sequence
  .ok (⟨ele2conflicts⟩, SetWiseCountingPersistence.report wantReport)

/-- Join when both are defined, else the one there is. -/
def joinConflicts (_tag : ℕ) :
    Option SetWiseCountingPersistence → Option SetWiseCountingPersistence →
      Except Fault SetWiseCountingPersistence
  | some s, some t => s.join T P mode t
  | some s, none | none, some s => .ok s
  | none, none => .error .outOfBounds

def join (e y : ElementWiseCountingPersistence) : Except Fault ElementWiseCountingPersistence := do
  let ele2conflicts ←
    (OrderedMap.merge (joinConflicts T P mode) e.ele2conflicts y.ele2conflicts).sequence
  .ok ⟨ele2conflicts⟩

def isPersistent (O : SetWiseCountingPersistence.SharedOptions)
    (e : ElementWiseCountingPersistence) (tag : ℕ) : Bool :=
  match e.ele2conflicts.find? tag with
  | some s => s.isPersistent T O tag
  | none => false

/-- `isPersistent(const GlobalVariable *var)`: "We have no idea". -/
def isPersistentArray (_e : ElementWiseCountingPersistence) (_var : GlobalVariable) : Bool := false

end ElementWiseCountingPersistence

/-- `isPersistent(const GlobalVariable *var)` -/
def SetWiseCountingPersistence.isPersistentArray (s : SetWiseCountingPersistence)
    (_var : GlobalVariable) : Bool := !s.top

/-! ## MultiScopePersistence -/

/-- What the wrapper uses of the analysis `P`. -/
structure PersistenceAnalysis (σ : Type) where
  new : σ
  update : σ → AbstractAddress → AccessType → Bool → Classification →
    Except Fault (σ × Option UpdateReport)
  potentialUpdate : σ → AbstractAddress → AccessType → Bool →
    Except Fault (σ × Option UpdateReport)
  join : σ → σ → Except Fault σ
  isPersistent : σ → ℕ → Bool
  isPersistentArray : σ → GlobalVariable → Bool

section Instances

variable (T : CacheTraits) (P : StaticAddressProvider) (mode : ArrayPersistenceAnaType)
  (O : SetWiseCountingPersistence.SharedOptions)

/-- `P()` starts the set-wise analysis with the default reference 0. -/
def setWise : PersistenceAnalysis SetWiseCountingPersistence where
  new := .new 0
  update s addr load_store wantReport assumption :=
    s.update T P mode addr load_store wantReport assumption
  potentialUpdate s addr load_store wantReport :=
    s.potentialUpdate T P mode addr load_store wantReport
  join x y := x.join T P mode y
  isPersistent s tag := s.isPersistent T O tag
  isPersistentArray s var := s.isPersistentArray var

def elementWise : PersistenceAnalysis ElementWiseCountingPersistence where
  new := .new
  update e addr load_store wantReport assumption :=
    e.update T P mode addr load_store wantReport assumption
  potentialUpdate e addr load_store wantReport :=
    e.potentialUpdate T P mode addr load_store wantReport
  join x y := x.join T P mode y
  isPersistent e tag := e.isPersistent T O tag
  isPersistentArray e var := e.isPersistentArray var

end Instances

/-- The analyses of the scopes that are entered, and how often each is. Scopes are told
apart by their identity. -/
structure MultiScopePersistence (σ : Type) where
  scopes2info : OrderedMap ℕ σ
  scopes2entercount : OrderedMap ℕ ℕ
  deriving DecidableEq

namespace MultiScopePersistence

variable {σ : Type} (A : PersistenceAnalysis σ)

def new : MultiScopePersistence σ := ⟨.empty, .empty⟩

def potentialUpdate (m : MultiScopePersistence σ) (addr : AbstractAddress)
    (load_store : AccessType) (wantReport : Bool) :
    Except Fault (MultiScopePersistence σ × Option UpdateReport) := do
  let scopes2info ← (m.scopes2info.mapValues fun _ s =>
    Prod.fst <$> A.potentialUpdate s addr load_store false).sequence
  .ok ({ m with scopes2info }, SetWiseCountingPersistence.report wantReport)

def update (m : MultiScopePersistence σ) (addr : AbstractAddress) (load_store : AccessType)
    (wantReport : Bool) (assumption : Classification) :
    Except Fault (MultiScopePersistence σ × Option UpdateReport) := do
  let scopes2info ← (m.scopes2info.mapValues fun _ s =>
    Prod.fst <$> A.update s addr load_store false assumption).sequence
  .ok ({ m with scopes2info }, SetWiseCountingPersistence.report wantReport)

/-- Both maps have the scope, as has been asserted. -/
def joinScope (_scope : ℕ) : Option σ → Option σ → Except Fault σ
  | some s, some t => A.join s t
  | _, _ => .error .outOfBounds

def join (m y : MultiScopePersistence σ) : Except Fault (MultiScopePersistence σ) := do
  assertThat (m.scopes2info.entries.length == y.scopes2info.entries.length)
    "Different #of scopes at join"
  assertThat (m.scopes2entercount.entries.map Prod.snd == y.scopes2entercount.entries.map Prod.snd)
    "Joining two same scopes that have been entered differently often."
  assertThat (m.scopes2info.keys == y.scopes2info.keys)
    "Encountered differrent scopes at join."
  let scopes2info ← (OrderedMap.merge (joinScope A) m.scopes2info y.scopes2info).sequence
  .ok { m with scopes2info }

/-- A scope can be entered again before it is left. -/
def enterScope (m : MultiScopePersistence σ) (scope : ℕ) : MultiScopePersistence σ :=
  match m.scopes2info.find? scope with
  | none =>
    ⟨m.scopes2info.insert scope A.new, m.scopes2entercount.insert scope 1⟩
  | some _ =>
    let count := (m.scopes2entercount.find? scope).getD 0
    { m with scopes2entercount := m.scopes2entercount.insert scope (count + 1) }

def leaveScope (m : MultiScopePersistence σ) (scope : ℕ) :
    Except Fault (MultiScopePersistence σ) := do
  assertThat (m.scopes2info.find? scope).isSome "Left scope already"
  match m.scopes2entercount.find? scope with
  | none => .error .outOfBounds
  | some count =>
    if 1 < count then
      .ok { m with scopes2entercount := m.scopes2entercount.insert scope (count - 1) }
    else .ok ⟨m.scopes2info.erase scope, m.scopes2entercount.erase scope⟩

/-- `getPersistentScopes(const TagType tag)` -/
def getPersistentScopes (m : MultiScopePersistence σ) (tag : ℕ) : List ℕ :=
  (m.scopes2info.entries.filter fun e => A.isPersistent e.2 tag).map Prod.fst

/-- `getPersistentScopes(const GlobalVariable *var)` -/
def getPersistentScopesOfArray (m : MultiScopePersistence σ) (var : GlobalVariable) : List ℕ :=
  (m.scopes2info.entries.filter fun e => A.isPersistentArray e.2 var).map Prod.fst

end MultiScopePersistence

end Llvmta
