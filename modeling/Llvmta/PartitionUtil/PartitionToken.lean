import Llvmta.PartitionUtil.Context
import Llvmta.PartitionUtil.LabeledTreePaths
import Mathlib.Data.Prod.Lex

/-!
# Comparisons of partition tokens

Tokens are ordered by their kinds, and those of one kind by what they hold. The comparisons
of an iteration of a loop read the back edges of the loop in the order of their set.
-/

namespace Llvmta

inductive PartitionTokenType where
  | none | ifOutcome | loopPeel | loopIter | callSite | funCallee
  deriving DecidableEq, Repr

/-- The position in the enumeration. -/
def PartitionTokenType.rank : PartitionTokenType → ℕ
  | none => 0
  | ifOutcome => 1
  | loopPeel => 2
  | loopIter => 3
  | callSite => 4
  | funCallee => 5

/-- Blocks are numbered in the order of their functions and of their numbers there. -/
def mbbedgecomp (lhs rhs : MBBedge) : Bool :=
  if lhs.1 = rhs.1 then decide (lhs.2 < rhs.2) else decide (lhs.1 < rhs.1)

namespace PartitionToken

def getType : PartitionToken → PartitionTokenType
  | none => .none
  | ifOutcome _ _ => .ifOutcome
  | loopPeel _ _ _ => .loopPeel
  | loopIter _ _ _ => .loopIter
  | callSite _ => .callSite
  | funCallee _ => .funCallee

def equals : PartitionToken → PartitionToken → Bool
  | none, pt => pt.getType == .none
  | ifOutcome _ _, pt => pt.getType == .ifOutcome
  | loopPeel _ backedges taken, pt =>
    match pt with
    | loopPeel _ backedges' taken' => taken' == taken && backedges' == backedges
    | _ => false
  | loopIter _ backedges taken, pt =>
    match pt with
    | loopIter _ backedges' taken' => taken' == taken && backedges' == backedges
    | _ => false
  | callSite callInstr, pt =>
    match pt with
    | callSite callInstr' => callInstr' == callInstr
    | _ => false
  | funCallee function, pt =>
    match pt with
    | funCallee function' => function' == function
    | _ => false

/-- The loop over two sets of as many back edges. -/
def lessBackedges : List MBBedge → List MBBedge → Bool
  | edge :: edges, edge' :: edges' =>
    if mbbedgecomp edge edge' || mbbedgecomp edge' edge then mbbedgecomp edge edge'
    else lessBackedges edges edges'
  | _, _ => false

def lessLoop (taken : ℕ) (backedges : List MBBedge) (taken' : ℕ) (backedges' : List MBBedge) :
    Bool :=
  if taken ≠ taken' then decide (taken < taken')
  else if backedges.length ≠ backedges'.length then
    decide (backedges.length < backedges'.length)
  else lessBackedges backedges backedges'

def less (pt pt' : PartitionToken) : Bool :=
  if pt.getType ≠ pt'.getType then decide (pt.getType.rank < pt'.getType.rank)
  else match pt, pt' with
    | loopPeel _ backedges taken, loopPeel _ backedges' taken' =>
      lessLoop taken backedges taken' backedges'
    | loopIter _ backedges taken, loopIter _ backedges' taken' =>
      lessLoop taken backedges taken' backedges'
    | callSite callInstr, callSite callInstr' => decide (callInstr < callInstr')
    | funCallee function, funCallee function' => decide (function < function')
    | _, _ => false

/-- What the comparisons read of a token, in the order in which `less` reads it. -/
abbrev Key := ℕ ×ₗ ℕ ×ₗ ℕ ×ₗ List (ℕ ×ₗ ℕ)

def keyOfLoop (taken : ℕ) (backedges : List MBBedge) : ℕ ×ₗ ℕ ×ₗ List (ℕ ×ₗ ℕ) :=
  toLex (taken, toLex (backedges.length, backedges.map toLex))

/-- What distinguishes a token from the others of its kind. -/
def keyInType : PartitionToken → ℕ ×ₗ ℕ ×ₗ List (ℕ ×ₗ ℕ)
  | none => keyOfLoop 0 []
  | ifOutcome _ _ => keyOfLoop 0 []
  | loopPeel _ backedges taken => keyOfLoop taken backedges
  | loopIter _ backedges taken => keyOfLoop taken backedges
  | callSite callInstr => keyOfLoop callInstr []
  | funCallee function => keyOfLoop function []

def key (pt : PartitionToken) : Key := toLex (pt.getType.rank, pt.keyInType)

theorem mbbedgecomp_iff (edge edge' : MBBedge) :
    mbbedgecomp edge edge' = true ↔ toLex edge < toLex edge' := by
  rw [mbbedgecomp, Prod.Lex.lt_iff]
  by_cases h : edge.1 = edge'.1 <;> simp [h]

theorem lessBackedges_iff {edges edges' : List MBBedge} (h : edges.length = edges'.length) :
    lessBackedges edges edges' = true ↔
      edges.map toLex < edges'.map (toLex : MBBedge → ℕ ×ₗ ℕ) := by
  induction edges generalizing edges' with
  | nil =>
    cases List.eq_nil_of_length_eq_zero h.symm
    simp [lessBackedges]
  | cons edge edges ih =>
    cases edges' with
    | nil => cases h
    | cons edge' edges' =>
      have hrest := ih (Nat.succ.inj h)
      rw [lessBackedges, List.map_cons, List.map_cons, List.cons_lt_cons_iff]
      simp only [Bool.or_eq_true, mbbedgecomp_iff]
      rcases lt_trichotomy (toLex edge) (toLex edge') with hlt | heq | hgt
      · simp [hlt, mbbedgecomp_iff]
      · simp [heq, hrest]
      · simp [hgt, hgt.not_gt, hgt.ne', mbbedgecomp_iff]

theorem lessLoop_iff (taken : ℕ) (backedges : List MBBedge) (taken' : ℕ)
    (backedges' : List MBBedge) : lessLoop taken backedges taken' backedges' = true ↔
      keyOfLoop taken backedges < keyOfLoop taken' backedges' := by
  rw [lessLoop, keyOfLoop, keyOfLoop, Prod.Lex.toLex_lt_toLex, Prod.Lex.toLex_lt_toLex]
  by_cases htaken : taken = taken'
  · by_cases hlength : backedges.length = backedges'.length
    · simp [htaken, hlength, lessBackedges_iff hlength]
    · simp [htaken, hlength]
  · simp [htaken]

theorem keyOfLoop_inj {taken taken' : ℕ} {backedges backedges' : List MBBedge} :
    keyOfLoop taken backedges = keyOfLoop taken' backedges' ↔
      taken' = taken ∧ backedges' = backedges := by
  constructor
  · intro h
    cases (Prod.ext_iff.mp h).1
    have hedges := (Prod.ext_iff.mp (Prod.ext_iff.mp h).2).2
    exact ⟨rfl, (List.map_injective_iff.mpr toLex.injective hedges).symm⟩
  · rintro ⟨rfl, rfl⟩
    rfl

theorem keyOfLoop_lt_iff {n n' : ℕ} : keyOfLoop n [] < keyOfLoop n' [] ↔ n < n' := by
  rw [← lessLoop_iff, lessLoop]
  by_cases h : n = n' <;> simp [h, lessBackedges]

theorem rank_injective : Function.Injective PartitionTokenType.rank := by
  intro t t' h
  cases t <;> cases t' <;> first | rfl | cases h

theorem less_iff (pt pt' : PartitionToken) : pt.less pt' = true ↔ pt.key < pt'.key := by
  rw [key, key, Prod.Lex.toLex_lt_toLex]
  by_cases h : pt.getType = pt'.getType
  · have hless : pt.less pt' = true ↔ pt.keyInType < pt'.keyInType := by
      cases pt <;> cases pt' <;> cases h <;>
        simp [less, getType, keyInType, keyOfLoop_lt_iff, lessLoop_iff]
    simp [h, hless]
  · simp [less, h, rank_injective.ne h]

theorem equals_iff (pt pt' : PartitionToken) : pt.equals pt' = true ↔ pt.key = pt'.key := by
  have hkey : pt.key = pt'.key ↔ pt.getType = pt'.getType ∧ pt.keyInType = pt'.keyInType := by
    rw [key, key, EmbeddingLike.apply_eq_iff_eq, Prod.mk.injEq, rank_injective.eq_iff]
  rw [hkey]
  by_cases h : pt.getType = pt'.getType
  · cases pt <;> cases pt' <;> cases h <;> simp [equals, getType, keyInType, keyOfLoop_inj]
  · simp only [h, false_and, iff_false, Bool.not_eq_true]
    cases pt <;> cases pt' <;> first | rfl | exact absurd rfl h

instance keyedLabel : KeyedLabel PartitionToken Key where
  equals := equals
  less := less
  key := key
  equals_iff := equals_iff
  less_iff := less_iff

end PartitionToken

end Llvmta
