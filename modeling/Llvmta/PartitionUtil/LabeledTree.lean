import Llvmta.Library.AddedEntries
import Llvmta.Library.CheckedVector
import Llvmta.Library.OrderedMap

/-!
# Labelled trees

The leaves of a labelled tree hold data. A node keeps its children in the order of their
labels. A tree in order stands for a partial map from the paths to its leaves.
-/

namespace Llvmta

open Checked OrderedMap

class TreeLabel (LabelType : Type) where
  equals : LabelType → LabelType → Bool
  less : LabelType → LabelType → Bool

open TreeLabel

inductive LabeledTree (LabelType LeafType : Type) where
  | leaf (value : LeafType)
  | node (lab2tree : List (LabelType × LabeledTree LabelType LeafType))

/-- The children of a node, as the map from labels holds them. -/
abbrev LabeledTree.Children (LabelType LeafType : Type) :=
  List (LabelType × LabeledTree LabelType LeafType)

namespace LabeledTree

variable {L A : Type}

def makeLabeledTree (labels : List L) (value : A) : LabeledTree L A :=
  labels.foldr (fun label res => node [(label, res)]) (leaf value)

section Labels

variable [TreeLabel L]

/-- The map takes two labels for the same key if neither is less than the other. -/
def sameKey (lab lab' : L) : Bool := !less lab lab' && !less lab' lab

def count (lab2tree : Children L A) (lab : L) : ℕ :=
  lab2tree.countP fun child => sameKey child.1 lab

def findChild (lab2tree : Children L A) (lab : L) : Option (LabeledTree L A) :=
  (lab2tree.find? fun child => sameKey child.1 lab).map Prod.snd

def insertChild (lab : L) (tr : LabeledTree L A) : Children L A → Children L A
  | [] => [(lab, tr)]
  | child :: children =>
    if less lab child.1 then (lab, tr) :: child :: children
    else child :: insertChild lab tr children

def addChild (lab2tree : Children L A) (lab : L) (tr : LabeledTree L A) :
    Except Fault (Children L A) := do
  assertThat (count lab2tree lab == 0) "Multiple children for one label"
  .ok (insertChild lab tr lab2tree)

def getChildWithEqualLabel : Children L A → L → Option (LabeledTree L A)
  | [], _ => none
  | child :: children, lab =>
    if equals child.1 lab then some child.2 else getChildWithEqualLabel children lab

/-- A change of the first child with an equal label. -/
def setChildWithEqualLabel (lab : L) (tr : LabeledTree L A) : Children L A → Children L A
  | [] => []
  | child :: children =>
    if equals child.1 lab then (child.1, tr) :: children
    else child :: setChildWithEqualLabel lab tr children

end Labels

mutual

/-- The leaves in the order of a walk, each with its path from the root. -/
def leaves (path : List L) : LabeledTree L A → List (List L × A)
  | leaf value => [(path, value)]
  | node lab2tree => leavesOf path lab2tree

def leavesOf (path : List L) : Children L A → List (List L × A)
  | [] => []
  | (lab, tr) :: children => leaves (path ++ [lab]) tr ++ leavesOf path children

end

mutual

/-- A walk that changes the values of the leaves. -/
def mapLeaves (f : List L → A → A) (path : List L) : LabeledTree L A → LabeledTree L A
  | leaf value => leaf (f path value)
  | node lab2tree => node (mapLeavesOf f path lab2tree)

def mapLeavesOf (f : List L → A → A) (path : List L) : Children L A → Children L A
  | [] => []
  | (lab, tr) :: children =>
    (lab, mapLeaves f (path ++ [lab]) tr) :: mapLeavesOf f path children

end

section Equality

variable [TreeLabel L] (lessequal : A → A → Bool)

theorem sizeOf_findChild {lab2tree : Children L A} {lab : L} {tr : LabeledTree L A}
    (h : findChild lab2tree lab = some tr) : sizeOf tr < sizeOf lab2tree := by
  obtain ⟨child, hchild, rfl⟩ := Option.map_eq_some_iff.mp h
  have hmem := List.sizeOf_lt_of_mem (List.mem_of_find?_eq_some hchild)
  have hsize : sizeOf child = 1 + sizeOf child.1 + sizeOf child.2 := by cases child; rfl
  omega

mutual

def equals : LabeledTree L A → LabeledTree L A → Bool
  | leaf value, leaf value' => lessequal value value' && lessequal value' value
  | node lab2tree, node lab2tree' =>
    sameChildren lab2tree lab2tree' && sameChildren lab2tree' lab2tree
  | leaf _, node _ => false
  | node _, leaf _ => false
termination_by tree tree' => sizeOf tree + sizeOf tree'

/-- Each child has an equal tree under the same label in the other map. -/
def sameChildren : Children L A → Children L A → Bool
  | [], _ => true
  | (lab, tr) :: children, lab2tree =>
    (match h : findChild lab2tree lab with
      | none => false
      | some tr' =>
        have := sizeOf_findChild h
        equals tr tr') && sameChildren children lab2tree
termination_by children lab2tree => sizeOf children + sizeOf lab2tree

end

end Equality

end LabeledTree

end Llvmta
