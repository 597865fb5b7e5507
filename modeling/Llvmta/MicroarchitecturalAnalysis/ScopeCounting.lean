import Llvmta.MicroarchitecturalAnalysis.MicroArchitecturalState

/-!
# Counting scopes

A topology that also remembers which scopes it was told to enter and to leave, and the
scopes of the edges along a path of executed instructions.
-/

namespace Llvmta.MicroArch

/-- A memory with the scopes that were entered and left so far. -/
structure ScopeCounted (μ : Type) where
  memory : μ
  entered : List PersistenceScope
  left : List PersistenceScope
  deriving DecidableEq, Repr

namespace ScopeCounted

variable {μ : Type}

/-- How often the scope was entered and not left. -/
def net (m : ScopeCounted μ) (scope : PersistenceScope) : ℤ :=
  m.entered.count scope - m.left.count scope

end ScopeCounted

namespace MemoryTopology

variable {μ : Type} (M : MemoryTopology μ)

/-- The topology that counts scopes. -/
def counting : MemoryTopology (ScopeCounted μ) where
  new := ⟨M.new, [], []⟩
  accessInstr := fun m addr numWords => do
    let (id, memory) ← M.accessInstr m.memory addr numWords
    .ok (id, { m with memory })
  accessData := fun m addr accessType numWords => do
    let (id, memory) ← M.accessData m.memory addr accessType numWords
    .ok (id, { m with memory })
  cycle := fun pending m => do
    .ok ((← M.cycle pending m.memory).map fun memory => { m with memory })
  shouldPipelineStall := fun m => M.shouldPipelineStall m.memory
  finishedInstrAccess := fun m id =>
    ((M.finishedInstrAccess m.memory id).1,
      { m with memory := (M.finishedInstrAccess m.memory id).2 })
  finishedDataAccess := fun m id =>
    ((M.finishedDataAccess m.memory id).1,
      { m with memory := (M.finishedDataAccess m.memory id).2 })
  isJoinable := fun m m' => M.isJoinable m.memory m'.memory
  join := fun m m' => do .ok { m with memory := ← M.join m.memory m'.memory }
  fastForward := fun m => do
    .ok ((← M.fastForward m.memory).map fun memory => { m with memory })
  resetLocalMetrics := fun m => { m with memory := M.resetLocalMetrics m.memory }
  enterScope := fun m scope =>
    { m with memory := M.enterScope m.memory scope, entered := m.entered ++ [scope] }
  leaveScope := fun m scope =>
    { m with memory := M.leaveScope m.memory scope, left := m.left ++ [scope] }
  hasUnfinishedAccesses := fun m => M.hasUnfinishedAccesses m.memory
  isBusyAccessingInstr := fun m => M.isBusyAccessingInstr m.memory
  isBusyAccessingData := fun m => M.isBusyAccessingData m.memory

section Counting

variable {M} (m : ScopeCounted μ)

theorem enterScopes_counting (scopes : List PersistenceScope) :
    (M.counting.enterScopes m scopes).entered = m.entered ++ scopes ∧
      (M.counting.enterScopes m scopes).left = m.left := by
  induction scopes generalizing m with
  | nil => exact ⟨(List.append_nil _).symm, rfl⟩
  | cons scope scopes ih =>
    obtain ⟨hentered, hleft⟩ := ih (M.counting.enterScope m scope)
    refine ⟨hentered.trans ?_, hleft⟩
    exact List.append_assoc _ _ _

theorem leaveScopes_counting (scopes : List PersistenceScope) :
    (M.counting.leaveScopes m scopes).entered = m.entered ∧
      (M.counting.leaveScopes m scopes).left = m.left ++ scopes := by
  induction scopes generalizing m with
  | nil => exact ⟨rfl, (List.append_nil _).symm⟩
  | cons scope scopes ih =>
    obtain ⟨hentered, hleft⟩ := ih (M.counting.leaveScope m scope)
    refine ⟨hentered, hleft.trans ?_⟩
    exact List.append_assoc _ _ _

end Counting

end MemoryTopology

/-- The scopes that were entered and left are the same. -/
structure ScopeCounted.SameScopes {μ : Type} (m m' : ScopeCounted μ) : Prop where
  entered : m'.entered = m.entered
  left : m'.left = m.left

section Counting

open Checked

variable {μ : Type} {M : MemoryTopology μ} {m m' : ScopeCounted μ}

theorem ScopeCounted.SameScopes.trans {m'' : ScopeCounted μ} (h : m.SameScopes m')
    (h' : m'.SameScopes m'') : m.SameScopes m'' :=
  ⟨h'.entered.trans h.entered, h'.left.trans h.left⟩

theorem sameScopes_of_accessInstr {addr numWords : ℕ} {id : Option ℕ}
    (h : M.counting.accessInstr m addr numWords = .ok (id, m')) : m.SameScopes m' := by
  obtain ⟨_, _, h⟩ := bind_eq_ok.mp h
  cases h
  exact ⟨rfl, rfl⟩

theorem sameScopes_of_accessData {addr : AbstractAddress} {accessType : AccessType}
    {numWords : ℕ} {id : Option ℕ}
    (h : M.counting.accessData m addr accessType numWords = .ok (id, m')) : m.SameScopes m' := by
  obtain ⟨_, _, h⟩ := bind_eq_ok.mp h
  cases h
  exact ⟨rfl, rfl⟩

theorem sameScopes_of_finishedInstrAccess {id : ℕ} {finished : Bool}
    (h : M.counting.finishedInstrAccess m id = (finished, m')) : m.SameScopes m' := by
  cases congrArg Prod.snd h
  exact ⟨rfl, rfl⟩

theorem sameScopes_of_cycle {pending : Bool} (h : Leads (M.counting.cycle pending) m m') :
    m.SameScopes m' := by
  obtain ⟨_, h, hm'⟩ := h
  obtain ⟨_, _, h⟩ := bind_eq_ok.mp h
  cases h
  obtain ⟨_, _, rfl⟩ := List.mem_map.mp hm'
  exact ⟨rfl, rfl⟩

theorem sameScopes_of_fastForward (h : Leads M.counting.fastForward m m') : m.SameScopes m' := by
  obtain ⟨_, h, hm'⟩ := h
  obtain ⟨_, _, h⟩ := bind_eq_ok.mp h
  cases h
  obtain ⟨_, _, rfl⟩ := List.mem_map.mp hm'
  exact ⟨rfl, rfl⟩

end Counting

section Path

variable (P : Program) (scopes : MBBedge → List PersistenceScope)

/-- The edges of a path, each with the element in front, if there is one. -/
def incoming : Option ExecutionElement → List ExecutionElement →
    List (Option ExecutionElement × ExecutionElement)
  | _, [] => []
  | prev, ee :: path => (prev, ee) :: incoming (some ee) path

/-- The scopes of an edge. -/
def scopesOf (edge : Option ExecutionElement × ExecutionElement) : List PersistenceScope :=
  match edge.1 with
  | none => []
  | some source => P.scopesBetween scopes source.1 edge.2.1

/-- How often the scope is among those of the edges. -/
def tally (edges : List (Option ExecutionElement × ExecutionElement)) (scope : PersistenceScope) :
    ℕ := (edges.map fun edge => (scopesOf P scopes edge).count scope).sum

variable {P scopes} (scope : PersistenceScope)
  (edge : Option ExecutionElement × ExecutionElement)
  (edges edges' : List (Option ExecutionElement × ExecutionElement))

@[simp] theorem tally_nil : tally P scopes [] scope = 0 := rfl

@[simp] theorem tally_cons : tally P scopes (edge :: edges) scope =
    (scopesOf P scopes edge).count scope + tally P scopes edges scope := rfl

@[simp] theorem tally_append : tally P scopes (edges ++ edges') scope =
    tally P scopes edges scope + tally P scopes edges' scope := by
  simp [tally]

theorem incoming_append (prev : Option ExecutionElement) (path path' : List ExecutionElement) :
    incoming prev (path ++ path') =
      incoming prev path ++ incoming (path.getLast?.or prev) path' := by
  induction path generalizing prev with
  | nil => rfl
  | cons ee path ih =>
    rw [List.cons_append, incoming, incoming, ih, List.cons_append, List.getLast?_cons]
    cases path.getLast? <;> rfl

end Path

end Llvmta.MicroArch
