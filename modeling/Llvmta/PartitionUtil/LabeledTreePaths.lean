import Llvmta.PartitionUtil.LabeledTree

/-!
# Paths of labelled trees

The comparisons of labels compare keys. A tree whose nodes have children with increasing
keys stands for the map from the paths of keys to the values of its leaves, and equality of
trees is equality of these maps.
-/

namespace Llvmta

open Checked OrderedMap TreeLabel

class KeyedLabel (LabelType : Type) (Key : outParam Type) [LinearOrder Key]
    extends TreeLabel LabelType where
  key : LabelType → Key
  equals_iff : ∀ lab lab', equals lab lab' = true ↔ key lab = key lab'
  less_iff : ∀ lab lab', less lab lab' = true ↔ key lab < key lab'

open KeyedLabel

namespace LabeledTree

variable {L K A : Type} [LinearOrder K] [KeyedLabel L K]

theorem sameKey_eq (lab lab' : L) : sameKey lab lab' = decide (key lab = key lab') := by
  rw [Bool.eq_iff_iff, decide_eq_true_eq, sameKey, Bool.and_eq_true, Bool.not_eq_true',
    Bool.not_eq_true', ← Bool.not_eq_true, ← Bool.not_eq_true, less_iff, less_iff, not_lt, not_lt]
  exact ⟨fun h => le_antisymm h.2 h.1, fun h => ⟨h.ge, h.le⟩⟩

section Children

/-- The children by the keys of their labels. -/
def entries (lab2tree : Children L A) : List (K × LabeledTree L A) :=
  lab2tree.map fun child => (key child.1, child.2)

def childAt (lab2tree : Children L A) (k : K) : Option (LabeledTree L A) :=
  findEntry k (entries lab2tree)

def Sorted (lab2tree : Children L A) : Prop :=
  (entries lab2tree).Pairwise fun e e' => e.1 < e'.1

variable {lab2tree : Children L A} {lab : L} {tr tr' : LabeledTree L A} {k : K}

theorem childAt_cons (child : L × LabeledTree L A) (lab2tree : Children L A) (k : K) :
    childAt (child :: lab2tree) k = if key child.1 = k then some child.2 else childAt lab2tree k :=
  rfl

theorem childAt_of_mem (h : Sorted lab2tree) {child : L × LabeledTree L A}
    (hchild : child ∈ lab2tree) : childAt lab2tree (key child.1) = some child.2 :=
  findEntry_of_mem h (List.mem_map_of_mem hchild)

theorem exists_of_childAt (h : childAt lab2tree k = some tr) :
    ∃ lab, (lab, tr) ∈ lab2tree ∧ key lab = k := by
  obtain ⟨child, hchild, heq⟩ := List.mem_map.mp (mem_of_findEntry h)
  cases heq
  exact ⟨child.1, hchild, rfl⟩

theorem findChild_eq (lab2tree : Children L A) (lab : L) :
    findChild lab2tree lab = childAt lab2tree (key lab) := by
  induction lab2tree with
  | nil => rfl
  | cons child lab2tree ih =>
    rw [childAt_cons, ← ih, findChild, List.find?_cons, sameKey_eq]
    by_cases h : key child.1 = key lab <;> simp [h, findChild]

theorem getChildWithEqualLabel_eq (lab2tree : Children L A) (lab : L) :
    getChildWithEqualLabel lab2tree lab = childAt lab2tree (key lab) := by
  induction lab2tree with
  | nil => rfl
  | cons child lab2tree ih =>
    rw [childAt_cons, ← ih, getChildWithEqualLabel]
    simp only [equals_iff]

theorem count_eq_zero (h : childAt lab2tree (key lab) = none) : count lab2tree lab = 0 := by
  induction lab2tree with
  | nil => rfl
  | cons child lab2tree ih =>
    rw [childAt_cons] at h
    split_ifs at h with hkey
    have hcount : count (child :: lab2tree) lab = count lab2tree lab := by
      simp [count, sameKey_eq, hkey]
    rw [hcount, ih h]

theorem entries_insertChild (lab : L) (tr : LabeledTree L A) {lab2tree : Children L A}
    (h : childAt lab2tree (key lab) = none) :
    entries (insertChild lab tr lab2tree) = insertEntry (key lab) tr (entries lab2tree) := by
  induction lab2tree with
  | nil => rfl
  | cons child lab2tree ih =>
    rw [childAt_cons] at h
    split_ifs at h with hkey
    have hcons : entries (child :: lab2tree) = (key child.1, child.2) :: entries lab2tree := rfl
    rw [hcons, insertEntry, insertChild]
    simp only [less_iff]
    rcases lt_trichotomy (key lab) (key child.1) with hlt | heq | hgt
    · rw [if_pos hlt, if_pos hlt]
      rfl
    · exact absurd heq.symm hkey
    · rw [if_neg hgt.not_gt, if_neg hgt.not_gt, if_pos hgt, ← ih h]
      rfl

theorem addChild_eq (h : childAt lab2tree (key lab) = none) (tr : LabeledTree L A) :
    addChild lab2tree lab tr = .ok (insertChild lab tr lab2tree) := by
  rw [addChild, count_eq_zero h]
  rfl

theorem Sorted.insertChild (h : Sorted lab2tree) (hnone : childAt lab2tree (key lab) = none) :
    Sorted (insertChild lab tr lab2tree) := by
  rw [Sorted, entries_insertChild lab tr hnone]
  exact sorted_insertEntry h

theorem childAt_insertChild (h : Sorted lab2tree) (lab : L)
    (hnone : childAt lab2tree (key lab) = none) (tr : LabeledTree L A) (k : K) :
    childAt (insertChild lab tr lab2tree) k =
      if key lab = k then some tr else childAt lab2tree k := by
  rw [childAt, entries_insertChild lab tr hnone]
  exact findEntry_insertEntry k h

/-- The labels stay when a tree changes under one of them. -/
theorem keys_setChildWithEqualLabel (lab : L) (tr : LabeledTree L A) (lab2tree : Children L A) :
    (setChildWithEqualLabel lab tr lab2tree).map Prod.fst = lab2tree.map Prod.fst := by
  induction lab2tree with
  | nil => rfl
  | cons child lab2tree ih =>
    rw [setChildWithEqualLabel]
    split_ifs
    · rfl
    · rw [List.map_cons, List.map_cons, ih]

theorem Sorted.of_labels {lab2tree' : Children L A} (h : Sorted lab2tree)
    (hlabels : lab2tree'.map Prod.fst = lab2tree.map Prod.fst) : Sorted lab2tree' := by
  have hkeys {children : Children L A} :
      Sorted children ↔ ((children.map Prod.fst).map key).Pairwise (· < ·) := by
    rw [Sorted, entries, List.pairwise_map, List.pairwise_map, List.pairwise_map]
  rw [hkeys, hlabels]
  exact hkeys.mp h

theorem childAt_setChildWithEqualLabel (lab : L) (h : childAt lab2tree (key lab) = some tr)
    (tr' : LabeledTree L A) (k : K) : childAt (setChildWithEqualLabel lab tr' lab2tree) k =
      if key lab = k then some tr' else childAt lab2tree k := by
  induction lab2tree with
  | nil => cases h
  | cons child lab2tree ih =>
    rw [setChildWithEqualLabel]
    simp only [equals_iff]
    rw [childAt_cons] at h
    split_ifs at h ⊢ with hchild hk hk
    · rw [childAt_cons, hchild, if_pos hk]
    · rw [childAt_cons, childAt_cons, hchild, if_neg hk, if_neg hk]
    · rw [childAt_cons, ih h, if_pos hk, if_neg (hk ▸ hchild)]
    · rw [childAt_cons, childAt_cons, ih h, if_neg hk]

end Children

/-- The value of the leaf at the end of a path. -/
def valueAt : List K → LabeledTree L A → Option A
  | [], leaf value => some value
  | _ :: _, leaf _ => none
  | [], node _ => none
  | k :: ks, node lab2tree => (childAt lab2tree k).bind (valueAt ks)

/-- Every node has children, with increasing keys. -/
inductive Ordered : LabeledTree L A → Prop
  | leaf (value : A) : Ordered (leaf value)
  | node (lab2tree : Children L A) (sorted : Sorted lab2tree) (nonempty : lab2tree ≠ [])
      (children : ∀ k tr, childAt lab2tree k = some tr → Ordered tr) : Ordered (node lab2tree)

section Paths

variable {tree tree' : LabeledTree L A}

@[simp] theorem valueAt_leaf_nil (value : A) :
    valueAt ([] : List K) (leaf value : LabeledTree L A) = some value := rfl

@[simp] theorem valueAt_leaf_cons (k : K) (ks : List K) (value : A) :
    valueAt (k :: ks) (leaf value : LabeledTree L A) = none := rfl

@[simp] theorem valueAt_node_nil (lab2tree : Children L A) :
    valueAt ([] : List K) (node lab2tree) = none := rfl

@[simp] theorem valueAt_node_cons (k : K) (ks : List K) (lab2tree : Children L A) :
    valueAt (k :: ks) (node lab2tree) = (childAt lab2tree k).bind (valueAt ks) := rfl

theorem childAt_singleton (lab : L) (tr : LabeledTree L A) (k : K) :
    childAt [(lab, tr)] k = if key lab = k then some tr else none := rfl

theorem valueAt_makeLabeledTree (labels : List L) (value : A) (ks : List K) :
    valueAt ks (makeLabeledTree labels value) =
      if labels.map key = ks then some value else none := by
  induction labels generalizing ks with
  | nil => cases ks <;> simp [makeLabeledTree]
  | cons lab labels ih =>
    have hcons : makeLabeledTree (lab :: labels) value =
        node [(lab, makeLabeledTree labels value)] := rfl
    rw [hcons]
    cases ks with
    | nil => simp
    | cons k ks =>
      rw [valueAt_node_cons, childAt_singleton]
      by_cases hk : key lab = k <;> simp [hk, ih]

theorem Ordered.exists_valueAt (h : Ordered tree) :
    ∃ (ks : List K) (value : A), valueAt ks tree = some value := by
  induction h with
  | leaf value => exact ⟨[], value, rfl⟩
  | node lab2tree sorted nonempty children ih =>
    obtain ⟨child, hchild⟩ := List.exists_mem_of_ne_nil lab2tree nonempty
    have hat := childAt_of_mem sorted hchild
    obtain ⟨ks, value, hvalue⟩ := ih _ _ hat
    exact ⟨key child.1 :: ks, value, by rw [valueAt_node_cons, hat]; exact hvalue⟩

theorem leavesOf_eq (path : List L) (lab2tree : Children L A) :
    leavesOf path lab2tree = lab2tree.flatMap fun child => leaves (path ++ [child.1]) child.2 := by
  induction lab2tree with
  | nil => rfl
  | cons child lab2tree ih => rw [leavesOf, ih, List.flatMap_cons]

/-- A walk from a deeper position finds the same leaves under longer paths. -/
theorem Ordered.leaves_eq (h : Ordered tree) (path : List L) :
    leaves path tree = (leaves [] tree).map fun e => (path ++ e.1, e.2) := by
  induction h generalizing path with
  | leaf value => simp [leaves]
  | node lab2tree sorted nonempty children ih =>
    rw [leaves, leaves, leavesOf_eq, leavesOf_eq, List.map_flatMap]
    apply List.flatMap_congr
    intro child hchild
    have hat := childAt_of_mem sorted hchild
    rw [ih _ _ hat, ih _ _ hat ([] ++ [child.1]), List.map_map]
    simp

theorem leaves_node (lab2tree : Children L A) (sorted : Sorted lab2tree)
    (children : ∀ k tr, childAt lab2tree k = some tr → Ordered tr) :
    leaves [] (node lab2tree) =
      lab2tree.flatMap fun child => (leaves [] child.2).map fun e => (child.1 :: e.1, e.2) := by
  rw [leaves, leavesOf_eq]
  apply List.flatMap_congr
  intro child hchild
  exact (children _ _ (childAt_of_mem sorted hchild)).leaves_eq [child.1]

/-- The leaves by the keys of their paths. -/
def keyedLeaves (tree : LabeledTree L A) : List (List K × A) :=
  (leaves [] tree).map fun e => (e.1.map key, e.2)

theorem keyedLeaves_node (lab2tree : Children L A) (sorted : Sorted lab2tree)
    (children : ∀ k tr, childAt lab2tree k = some tr → Ordered tr) :
    keyedLeaves (node lab2tree) = (entries lab2tree).flatMap fun child =>
      (keyedLeaves child.2).map fun e => (child.1 :: e.1, e.2) := by
  rw [keyedLeaves, leaves_node lab2tree sorted children, List.map_flatMap, entries,
    List.flatMap_map]
  apply List.flatMap_congr
  intro child _
  rw [keyedLeaves, List.map_map, List.map_map]
  rfl

/-- A walk lists the paths with their values, each once. -/
theorem Ordered.lists (h : Ordered tree) :
    AddedEntries.Lists (keyedLeaves tree) fun ks => valueAt ks tree := by
  induction h with
  | leaf value =>
    constructor
    · exact List.nodup_singleton _
    · intro ks a
      cases ks <;> simp [keyedLeaves, leaves, eq_comm]
  | node lab2tree sorted nonempty children ih =>
    rw [keyedLeaves_node lab2tree sorted children]
    constructor
    · rw [List.map_flatMap, List.nodup_flatMap]
      constructor
      · intro child hchild
        have hnodup := (ih _ _ (findEntry_of_mem sorted hchild)).nodup
        rw [List.map_map]
        have hmap : (Prod.fst ∘ fun e : List K × A => (child.1 :: e.1, e.2)) =
            List.cons child.1 ∘ Prod.fst := rfl
        rw [hmap, ← List.map_map]
        exact hnodup.map List.cons_injective
      · apply sorted.imp
        intro child child' hlt ks hks hks'
        obtain ⟨e, he, rfl⟩ := List.mem_map.mp hks
        obtain ⟨e', he', heq⟩ := List.mem_map.mp hks'
        obtain ⟨x, _, rfl⟩ := List.mem_map.mp he
        obtain ⟨x', _, rfl⟩ := List.mem_map.mp he'
        exact hlt.ne' (List.cons.inj heq).1
    · intro ks a
      rw [List.mem_flatMap]
      constructor
      · rintro ⟨child, hchild, hmem⟩
        obtain ⟨e, he, heq⟩ := List.mem_map.mp hmem
        cases heq
        have hat := findEntry_of_mem sorted hchild
        rw [valueAt_node_cons, childAt, hat]
        exact ((ih _ _ hat).mem_iff _ _).mp he
      · intro hvalue
        cases ks with
        | nil => cases hvalue
        | cons k ks =>
          rw [valueAt_node_cons] at hvalue
          obtain ⟨tr, htr, hvalue⟩ := Option.bind_eq_some_iff.mp hvalue
          refine ⟨(k, tr), mem_of_findEntry htr, ?_⟩
          exact List.mem_map.mpr ⟨(ks, a), ((ih _ _ htr).mem_iff _ _).mpr hvalue, rfl⟩

end Paths

section Equality

variable {lessequal : A → A → Bool} {tree tree' : LabeledTree L A}

/-- Values that the order of the analysis does not tell apart. -/
def Alike (lessequal : A → A → Bool) (a a' : A) : Prop :=
  lessequal a a' = true ∧ lessequal a' a = true

theorem equals_comm (tree tree' : LabeledTree L A) :
    equals lessequal tree tree' = equals lessequal tree' tree := by
  cases tree <;> cases tree' <;> simp only [equals, Bool.and_comm]

theorem sameChildren_iff (lab2tree lab2tree' : Children L A) :
    sameChildren lessequal lab2tree lab2tree' = true ↔ ∀ child ∈ lab2tree,
      ∃ tr, childAt lab2tree' (key child.1) = some tr ∧ equals lessequal child.2 tr = true := by
  induction lab2tree with
  | nil => simp [sameChildren]
  | cons child lab2tree ih =>
    rw [sameChildren, Bool.and_eq_true, ih, List.forall_mem_cons, ← findChild_eq]
    apply and_congr_left'
    split
    · next h => simp [h]
    · next tr h => simp [h]

/-- Two trees are equal if and only if they hold alike values at the same paths. -/
theorem equals_iff (h : Ordered tree) (h' : Ordered tree') : equals lessequal tree tree' = true ↔
    ∀ ks, Option.Rel (Alike lessequal) (valueAt ks tree) (valueAt ks tree') := by
  induction h generalizing tree' with
  | leaf value =>
    cases h' with
    | leaf value' =>
      rw [equals, Bool.and_eq_true]
      constructor
      · rintro hle (_ | ⟨k, ks⟩)
        · exact .some hle
        · exact .none
      · intro hrel
        cases hrel [] with
        | some hle => exact hle
    | node lab2tree' _ _ _ =>
      rw [equals]
      constructor
      · intro hfalse
        cases hfalse
      · intro hrel
        cases hrel []
  | node lab2tree sorted nonempty children ih =>
    cases h' with
    | leaf value' =>
      rw [equals]
      constructor
      · intro hfalse
        cases hfalse
      · intro hrel
        cases hrel []
    | node lab2tree' sorted' nonempty' children' =>
      rw [equals, Bool.and_eq_true, sameChildren_iff, sameChildren_iff]
      constructor
      · rintro ⟨hsame, hsame'⟩ (_ | ⟨k, ks⟩)
        · exact .none
        · rw [valueAt_node_cons, valueAt_node_cons]
          cases hat : childAt lab2tree k with
          | none =>
            cases hat' : childAt lab2tree' k with
            | none => exact .none
            | some tr' =>
              obtain ⟨lab, hlab, rfl⟩ := exists_of_childAt hat'
              obtain ⟨tr, htr, -⟩ := hsame' _ hlab
              rw [hat] at htr
              cases htr
          | some tr =>
            obtain ⟨lab, hlab, rfl⟩ := exists_of_childAt hat
            obtain ⟨tr', hat', hequals⟩ := hsame _ hlab
            rw [hat']
            exact (ih _ _ hat (children' _ _ hat')).mp hequals ks
      · intro hrel
        have hchild {k : K} {tr tr' : LabeledTree L A} (hat : childAt lab2tree k = some tr)
            (hat' : childAt lab2tree' k = some tr') : equals lessequal tr tr' = true := by
          apply (ih _ _ hat (children' _ _ hat')).mpr
          intro ks
          have hks := hrel (k :: ks)
          rw [valueAt_node_cons, valueAt_node_cons, hat, hat'] at hks
          exact hks
        constructor
        · intro child hmem
          have hat := childAt_of_mem sorted hmem
          obtain ⟨ks, value, hvalue⟩ := (children _ _ hat).exists_valueAt
          have hks := hrel (key child.1 :: ks)
          rw [valueAt_node_cons, valueAt_node_cons, hat, Option.bind_some, hvalue] at hks
          cases hat' : childAt lab2tree' (key child.1) with
          | none =>
            rw [hat'] at hks
            cases hks
          | some tr' => exact ⟨tr', rfl, hchild hat hat'⟩
        · intro child hmem
          have hat' := childAt_of_mem sorted' hmem
          obtain ⟨ks, value, hvalue⟩ := (children' _ _ hat').exists_valueAt
          have hks := hrel (key child.1 :: ks)
          rw [valueAt_node_cons, valueAt_node_cons, hat', Option.bind_some, hvalue] at hks
          cases hat : childAt lab2tree (key child.1) with
          | none =>
            rw [hat] at hks
            cases hks
          | some tr =>
            refine ⟨tr, rfl, ?_⟩
            rw [equals_comm]
            exact hchild hat hat'

end Equality

end LabeledTree

end Llvmta
