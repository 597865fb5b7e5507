import Llvmta.AnalysisFramework.ContextMaps

/-!
# Transfers along edges

When a back edge of a loop is taken, the tree moves the information of each iteration to
the next one. This is shown leaf by leaf: where the tokens of the loop are the last ones of
their contexts and no iteration is missing, no assertion fails.
-/

namespace Llvmta

open Checked LabeledTree KeyedLabel AnalysisDom

namespace PartitionToken

def hasBackedge (edge : MBBedge) : PartitionToken → Bool
  | loopPeel _ backedges _ => decide (edge ∈ backedges)
  | loopIter _ backedges _ => decide (edge ∈ backedges)
  | _ => false

/-- The token of the iteration before. -/
def previous : PartitionToken → PartitionToken
  | loopPeel loop backedges taken => loopPeel loop backedges (taken - 1)
  | loopIter loop backedges taken => loopPeel loop backedges (taken - 1)
  | token => token

/-- What a token gets from its own value and from that of the iteration before. -/
def receive {A : Type} [AnalysisDom A] (value : A) (dep : Option A) : PartitionToken → Option A
  | loopPeel _ _ taken => if taken = 0 then some (ofInit .bottom) else dep
  | loopIter _ _ taken => if taken = 0 then some value else dep.map (join value)
  | _ => some value

end PartitionToken

namespace ContextTree

variable {A : Type}

section Matched

variable {lab2tree lab2tree' : Children PartitionToken A}
variable {R : PartitionToken × ContextTree A → ContextTree A → Prop}

/-- The children of two nodes, label by label. -/
abbrev Matched (R : PartitionToken × ContextTree A → ContextTree A → Prop)
    (lab2tree lab2tree' : Children PartitionToken A) : Prop :=
  List.Forall₂ (fun child child' => child'.1 = child.1 ∧ R child child'.2) lab2tree lab2tree'

theorem Matched.labels (h : Matched R lab2tree lab2tree') :
    lab2tree'.map Prod.fst = lab2tree.map Prod.fst := by
  induction h with
  | nil => rfl
  | cons hchild _ ih => rw [List.map_cons, List.map_cons, hchild.1, ih]

theorem Matched.childAt (h : Matched R lab2tree lab2tree') {k : PartitionToken.Key} :
    (childAt lab2tree k = none ∧ LabeledTree.childAt lab2tree' k = none) ∨
      ∃ child ∈ lab2tree, ∃ tr', key child.1 = k ∧ R child tr' ∧
        LabeledTree.childAt lab2tree k = some child.2 ∧
        LabeledTree.childAt lab2tree' k = some tr' := by
  induction h with
  | nil => exact .inl ⟨rfl, rfl⟩
  | @cons child child' children children' hchild _ ih =>
    rw [childAt_cons, childAt_cons, hchild.1]
    by_cases hk : key child.1 = k
    · refine .inr ⟨child, List.mem_cons_self, child'.2, hk, hchild.2, ?_, ?_⟩
      · rw [if_pos hk]
      · rw [if_pos hk]
    · rw [if_neg hk, if_neg hk]
      apply ih.imp_right
      rintro ⟨c, hc, rest⟩
      exact ⟨c, List.mem_cons_of_mem child hc, rest⟩

theorem Matched.exists_right (h : Matched R lab2tree lab2tree')
    {child : PartitionToken × ContextTree A} (hchild : child ∈ lab2tree) :
    ∃ child' ∈ lab2tree', child'.1 = child.1 ∧ R child child'.2 := by
  induction h with
  | nil => cases hchild
  | @cons c c' _ _ hc _ ih =>
    rcases List.mem_cons.mp hchild with rfl | hchild
    · exact ⟨c', List.mem_cons_self, hc⟩
    · obtain ⟨child', hmem, hrest⟩ := ih hchild
      exact ⟨child', List.mem_cons_of_mem c' hmem, hrest⟩

theorem Matched.exists_left (h : Matched R lab2tree lab2tree')
    {child' : PartitionToken × ContextTree A} (hchild : child' ∈ lab2tree') :
    ∃ child ∈ lab2tree, child'.1 = child.1 ∧ R child child'.2 := by
  induction h with
  | nil => cases hchild
  | @cons c c' _ _ hc _ ih =>
    rcases List.mem_cons.mp hchild with rfl | hchild
    · exact ⟨c, List.mem_cons_self, hc⟩
    · obtain ⟨child, hmem, hrest⟩ := ih hchild
      exact ⟨child, List.mem_cons_of_mem c hmem, hrest⟩

end Matched

/-- A node has a leaf, whose path is not empty. -/
theorem exists_leaf_of_node {lab2tree : Children PartitionToken A}
    (h : WellFormed (.node lab2tree)) :
    ∃ leaf ∈ leaves [] (.node lab2tree), leaf.1 ≠ [] := by
  obtain ⟨ks, value, hvalue⟩ := h.ordered.exists_valueAt
  obtain ⟨leaf, hleaf, heq⟩ := List.mem_map.mp ((h.ordered.lists.mem_iff ks value).mpr hvalue)
  refine ⟨leaf, hleaf, ?_⟩
  intro hnil
  have hks : ks = [] := by rw [← (Prod.mk.inj heq).1, hnil, List.map_nil]
  rw [hks] at hvalue
  cases hvalue

variable [AnalysisDom A] {edge : MBBedge}

theorem edgeTransfer_of_not {token : PartitionToken} (h : token.hasBackedge edge = false)
    (lab2tree : Children PartitionToken A) (child : ContextTree A) :
    edgeTransfer edge lab2tree token child = .ok child := by
  cases token <;> simp_all [edgeTransfer, PartitionToken.hasBackedge]

theorem edgeTransfer_leaf {token : PartitionToken} (h : token.hasBackedge edge = true)
    (lab2tree : Children PartitionToken A) (value : A) :
    edgeTransfer edge lab2tree token (.leaf value) =
      match token.receive value (valueAt [key token.previous] (.node lab2tree)) with
      | some value' => .ok (.leaf value')
      | none => .error (.assertion "Dependent tree leaf does not exist or is no leaf.") := by
  cases token with
  | loopPeel loop backedges taken =>
    have hedge : edge ∈ backedges := of_decide_eq_true h
    rw [edgeTransfer, if_pos hedge, PartitionToken.receive, PartitionToken.previous,
      valueAt_node_cons, getChildWithEqualLabel_eq]
    by_cases htaken : taken = 0
    · simp [htaken]
    · rw [if_neg htaken, if_neg htaken]
      rcases childAt lab2tree (key (PartitionToken.loopPeel loop backedges (taken - 1))) with
        _ | ⟨dep⟩ | ⟨children⟩ <;> simp
  | loopIter loop backedges taken =>
    have hedge : edge ∈ backedges := of_decide_eq_true h
    rw [edgeTransfer, if_pos hedge, PartitionToken.receive, PartitionToken.previous,
      valueAt_node_cons, getChildWithEqualLabel_eq]
    by_cases htaken : taken = 0
    · simp [htaken]
    · rw [if_neg htaken, if_neg htaken]
      rcases childAt lab2tree (key (PartitionToken.loopPeel loop backedges (taken - 1))) with
        _ | ⟨dep⟩ | ⟨children⟩ <;> simp
  | none => cases h
  | ifOutcome _ _ => cases h
  | callSite _ => cases h
  | funCallee _ => cases h

/-- A transfer changes leaves only, into leaves. -/
theorem sameShape_edgeTransfer {token : PartitionToken} {lab2tree : Children PartitionToken A}
    {child child' : ContextTree A} (h : edgeTransfer edge lab2tree token child = .ok child') :
    child' = child ∨ ∃ value value', child = .leaf value ∧ child' = .leaf value' := by
  by_cases hedge : token.hasBackedge edge = true
  · cases child with
    | leaf value =>
      rw [edgeTransfer_leaf hedge] at h
      split at h
      · cases h
        exact .inr ⟨_, _, rfl, rfl⟩
      · cases h
    | node children =>
      cases token with
      | loopPeel loop backedges taken =>
        rw [edgeTransfer, if_pos (of_decide_eq_true hedge)] at h
        cases h
      | loopIter loop backedges taken =>
        rw [edgeTransfer, if_pos (of_decide_eq_true hedge)] at h
        cases h
      | none => cases hedge
      | ifOutcome _ _ => cases hedge
      | callSite _ => cases hedge
      | funCallee _ => cases hedge
  · rw [edgeTransfer_of_not (Bool.not_eq_true _ ▸ hedge)] at h
    cases h
    exact .inl rfl

section Children

variable {lab2tree lab2tree' : Children PartitionToken A}

theorem matched_of_shiftChildren (h : shiftChildren edge lab2tree = .ok lab2tree') :
    Matched (fun child tr' => shift edge child.2 = .ok tr') lab2tree lab2tree' := by
  induction lab2tree generalizing lab2tree' with
  | nil =>
    cases h
    exact .nil
  | cons child children ih =>
    rw [shiftChildren] at h
    obtain ⟨tr', htr', h⟩ := bind_eq_ok.mp h
    obtain ⟨children', hchildren', h⟩ := bind_eq_ok.mp h
    cases h
    exact .cons ⟨rfl, htr'⟩ (ih hchildren')

theorem shiftChildren_of_forall (h : ∀ child ∈ lab2tree, ∃ tr', shift edge child.2 = .ok tr') :
    ∃ lab2tree', shiftChildren edge lab2tree = .ok lab2tree' := by
  induction lab2tree with
  | nil => exact ⟨[], rfl⟩
  | cons child children ih =>
    obtain ⟨tr', htr'⟩ := h child List.mem_cons_self
    obtain ⟨children', hchildren'⟩ := ih fun c hc => h c (List.mem_cons_of_mem child hc)
    refine ⟨(child.1, tr') :: children', ?_⟩
    rw [shiftChildren, htr', ok_bind, hchildren']
    rfl

/-- The second pass over the children of a node. -/
theorem matched_of_mapM {old : Children PartitionToken A}
    (h : (lab2tree.mapM fun child =>
      (edgeTransfer edge old child.1 child.2).map fun tr => (child.1, tr)) = .ok lab2tree') :
    Matched (fun child tr' => edgeTransfer edge old child.1 child.2 = .ok tr') lab2tree
      lab2tree' := by
  induction lab2tree generalizing lab2tree' with
  | nil =>
    cases h
    exact .nil
  | cons child children ih =>
    rw [List.mapM_cons] at h
    obtain ⟨child', hchild', h⟩ := bind_eq_ok.mp h
    obtain ⟨children', hchildren', h⟩ := bind_eq_ok.mp h
    cases h
    cases htr : edgeTransfer edge old child.1 child.2 with
    | error e =>
      rw [htr] at hchild'
      cases hchild'
    | ok tr =>
      rw [htr] at hchild'
      cases hchild'
      exact .cons ⟨rfl, htr⟩ (ih hchildren')

theorem mapM_of_forall {old : Children PartitionToken A}
    (h : ∀ child ∈ lab2tree, ∃ tr', edgeTransfer edge old child.1 child.2 = .ok tr') :
    ∃ lab2tree', (lab2tree.mapM fun child =>
      (edgeTransfer edge old child.1 child.2).map fun tr => (child.1, tr)) = .ok lab2tree' := by
  induction lab2tree with
  | nil => exact ⟨[], rfl⟩
  | cons child children ih =>
    obtain ⟨tr', htr'⟩ := h child List.mem_cons_self
    obtain ⟨children', hchildren'⟩ := ih fun c hc => h c (List.mem_cons_of_mem child hc)
    refine ⟨(child.1, tr') :: children', ?_⟩
    rw [List.mapM_cons, htr', hchildren']
    rfl

end Children

theorem sameShape_shift {tree tree' : ContextTree A} (hwell : WellFormed tree)
    (h : shift edge tree = .ok tree') : SameShape tree tree' := by
  induction hwell generalizing tree' with
  | leaf value =>
    cases h
    exact .leaf value value
  | node lab2tree sorted branches noneLeaf children ih =>
    rw [shift] at h
    obtain ⟨lab2tree₁, h₁, h⟩ := bind_eq_ok.mp h
    obtain ⟨lab2tree₂, h₂, h⟩ := bind_eq_ok.mp h
    cases h
    have hmatched₁ := matched_of_shiftChildren h₁
    have hmatched₂ := matched_of_mapM h₂
    apply SameShape.node
    · rw [hmatched₂.labels, hmatched₁.labels]
    · intro k tr tr₂ htr htr₂
      rcases hmatched₁.childAt (k := k) with ⟨hnone, -⟩ | ⟨child, -, tr₁, rfl, hshift, hat, hat₁⟩
      · rw [hnone] at htr
        cases htr
      · rcases hmatched₂.childAt (k := key child.1) with
          ⟨hnone, -⟩ | ⟨child₁, -, tr₂', hk, htransfer, hat₁', hat₂⟩
        · rw [hnone] at hat₁
          cases hat₁
        · rw [hat] at htr
          rw [hat₂] at htr₂
          cases htr
          cases htr₂
          rw [hat₁] at hat₁'
          cases hat₁'
          have hshape := ih _ _ hat hshift
          rcases sameShape_edgeTransfer htransfer with heq | ⟨value, value', hvalue, rfl⟩
          · rwa [heq]
          · rw [hvalue] at hshape
            generalize child.2 = tr at hshape ⊢
            cases hshape with
            | leaf value₀ => exact .leaf value₀ value'

/-- The value of a leaf after the edge is taken, by the labels of its path: a token of a loop
with this back edge receives what the map before holds for the iteration before it. -/
def shiftedValue (edge : MBBedge) (old : ContextKey → Option A) (value : A) :
    List PartitionToken → Option A
  | [] => some value
  | [token] =>
    if token.hasBackedge edge then token.receive value (old [key token.previous]) else some value
  | token :: path => shiftedValue edge (fun ks => old (key token :: ks)) value path

theorem shiftedValue_cons (old : ContextKey → Option A) (value : A) (token : PartitionToken)
    {path : List PartitionToken} (hpath : path ≠ []) : shiftedValue edge old value (token :: path) =
      shiftedValue edge (fun ks => old (key token :: ks)) value path := by
  cases path with
  | nil => exact absurd rfl hpath
  | cons token' path => rfl

theorem valueAt_nil_of_shift {tree tree' : ContextTree A} (h : shift edge tree = .ok tree') :
    valueAt [] tree' = valueAt [] tree := by
  cases tree with
  | leaf value =>
    cases h
    rfl
  | node lab2tree =>
    rw [shift] at h
    obtain ⟨lab2tree₁, -, h⟩ := bind_eq_ok.mp h
    obtain ⟨lab2tree₂, -, h⟩ := bind_eq_ok.mp h
    cases h
    rfl

/-- What is asked of a leaf: only the last label of its path may belong to a loop with this
back edge, and then the iteration before it has a leaf. -/
structure Shifts (edge : MBBedge) (old : ContextKey → Option A) (leaf : List PartitionToken × A) :
    Prop where
  last : ∀ token ∈ leaf.1.dropLast, token.hasBackedge edge = false
  received : shiftedValue edge old leaf.2 leaf.1 ≠ none

theorem Shifts.of_cons {old : ContextKey → Option A} {token : PartitionToken}
    {leaf : List PartitionToken × A} (h : Shifts edge old (token :: leaf.1, leaf.2)) :
    Shifts edge (fun ks => old (key token :: ks)) leaf := by
  obtain ⟨path, value⟩ := leaf
  cases path with
  | nil => exact ⟨fun _ hmem => absurd hmem List.not_mem_nil, Option.some_ne_none _⟩
  | cons token' path =>
    exact ⟨fun t ht => h.last t (List.mem_cons_of_mem token ht), h.received⟩

theorem shift_spec {tree : ContextTree A} (h : WellFormed tree)
    (hshifts : ∀ leaf ∈ leaves [] tree, Shifts edge (fun ks => valueAt ks tree) leaf) :
    ∃ tree', shift edge tree = .ok tree' ∧ ∀ leaf ∈ leaves [] tree,
      valueAt (leaf.1.map key) tree' =
        shiftedValue edge (fun ks => valueAt ks tree) leaf.2 leaf.1 := by
  induction h with
  | leaf value =>
    refine ⟨.leaf value, rfl, ?_⟩
    intro leaf hleaf
    cases List.mem_singleton.mp hleaf
    rfl
  | node lab2tree sorted branches noneLeaf children ih =>
    have hwell := WellFormed.node lab2tree sorted branches noneLeaf children
    have hleaves := leaves_node lab2tree sorted fun k tr htr => (children k tr htr).ordered
    have hmem {child : PartitionToken × ContextTree A} (hchild : child ∈ lab2tree)
        {leaf : List PartitionToken × A} (hleaf : leaf ∈ leaves [] child.2) :
        (child.1 :: leaf.1, leaf.2) ∈ leaves [] (.node lab2tree) := by
      rw [hleaves]
      exact List.mem_flatMap.mpr ⟨child, hchild, List.mem_map_of_mem hleaf⟩
    have hbelow {child : PartitionToken × ContextTree A} (hchild : child ∈ lab2tree) :
        (fun ks => valueAt (key child.1 :: ks) (.node lab2tree)) =
          fun ks => valueAt ks child.2 := by
      funext ks
      rw [valueAt_node_cons, childAt_of_mem sorted hchild, Option.bind_some]
    have hchild {child : PartitionToken × ContextTree A} (hchild : child ∈ lab2tree) :=
      ih _ _ (childAt_of_mem sorted hchild) fun leaf hleaf =>
        hbelow hchild ▸ (hshifts _ (hmem hchild hleaf)).of_cons
    -- The first pass shifts the children.
    obtain ⟨lab2tree₁, h₁⟩ := shiftChildren_of_forall fun child hmem =>
      (hchild hmem).imp fun _ h => h.1
    have hmatched₁ := matched_of_shiftChildren h₁
    have hnil (k : PartitionToken.Key) :
        valueAt [k] (.node lab2tree₁) = valueAt [k] (.node lab2tree) := by
      rw [valueAt_node_cons, valueAt_node_cons]
      rcases hmatched₁.childAt (k := k) with ⟨hnone, hnone₁⟩ | ⟨child, -, tr₁, -, hshift, hat, hat₁⟩
      · rw [hnone, hnone₁]
      · rw [hat, hat₁]
        exact valueAt_nil_of_shift hshift
    -- The second pass changes the leaves under tokens of the loop.
    have htransfer {child : PartitionToken × ContextTree A} (hmemChild : child ∈ lab2tree)
        {tr₁ : ContextTree A} (hshift : shift edge child.2 = .ok tr₁) :
        ∃ tr₂, edgeTransfer edge lab2tree₁ child.1 tr₁ = .ok tr₂ ∧ ∀ leaf ∈ leaves [] child.2,
          valueAt (leaf.1.map key) tr₂ = shiftedValue edge
            (fun ks => valueAt ks (.node lab2tree)) leaf.2 (child.1 :: leaf.1) := by
      by_cases hedge : child.1.hasBackedge edge = true
      · obtain ⟨lab, tr⟩ := child
        have htr : ∃ value, tr = .leaf value := by
          cases tr with
          | leaf value => exact ⟨value, rfl⟩
          | node below =>
            obtain ⟨leaf, hleaf, hne⟩ :=
              exists_leaf_of_node (children _ _ (childAt_of_mem sorted hmemChild))
            have hlast := (hshifts _ (hmem hmemChild hleaf)).last lab
            rw [List.dropLast_cons_of_ne_nil hne, hedge] at hlast
            cases hlast List.mem_cons_self
        obtain ⟨value, rfl⟩ := htr
        cases hshift
        have hleaf : (([], value) : List PartitionToken × A) ∈
            leaves [] (.leaf value : ContextTree A) := List.mem_singleton_self _
        have hreceived := (hshifts _ (hmem hmemChild hleaf)).received
        have hvalue : shiftedValue edge (fun ks => valueAt ks (.node lab2tree)) value [lab] =
            lab.receive value (valueAt [key lab.previous] (.node lab2tree)) := if_pos hedge
        rw [hvalue] at hreceived
        obtain ⟨value', hvalue'⟩ := Option.ne_none_iff_exists'.mp hreceived
        refine ⟨.leaf value', ?_, ?_⟩
        · rw [edgeTransfer_leaf hedge, hnil, hvalue']
        · intro leaf hleaf
          cases List.mem_singleton.mp hleaf
          rw [hvalue, hvalue']
          rfl
      · have hfalse : child.1.hasBackedge edge = false := Bool.not_eq_true _ ▸ hedge
        refine ⟨tr₁, edgeTransfer_of_not hfalse _ _, ?_⟩
        intro leaf hleaf
        obtain ⟨tr', hshift', hvalues⟩ := hchild hmemChild
        rw [hshift] at hshift'
        cases hshift'
        rw [hvalues leaf hleaf, ← hbelow hmemChild]
        by_cases hnil : leaf.1 = []
        · rw [hnil]
          exact (if_neg hedge).symm
        · rw [shiftedValue_cons (fun ks => valueAt ks (.node lab2tree)) leaf.2 child.1 hnil]
    have htransfers : ∀ child₁ ∈ lab2tree₁,
        ∃ tr₂, edgeTransfer edge lab2tree₁ child₁.1 child₁.2 = .ok tr₂ := by
      intro child₁ hchild₁
      obtain ⟨child, hmemChild, hlabel, hshift⟩ := hmatched₁.exists_left hchild₁
      rw [hlabel]
      exact (htransfer hmemChild hshift).imp fun _ h => h.1
    obtain ⟨lab2tree₂, h₂⟩ := mapM_of_forall htransfers
    have hmatched₂ := matched_of_mapM h₂
    refine ⟨.node lab2tree₂, ?_, ?_⟩
    · rw [shift, h₁, ok_bind, h₂]
      rfl
    · intro leaf hleaf
      rw [hleaves] at hleaf
      obtain ⟨child, hmemChild, hbelowLeaf⟩ := List.mem_flatMap.mp hleaf
      obtain ⟨below, hbelowMem, rfl⟩ := List.mem_map.mp hbelowLeaf
      obtain ⟨child₁, hchild₁, hlabel₁, hshift⟩ := hmatched₁.exists_right hmemChild
      obtain ⟨child₂, hchild₂, hlabel₂, htr₂⟩ := hmatched₂.exists_right hchild₁
      obtain ⟨tr₂, htr₂', hvalues⟩ := htransfer hmemChild hshift
      rw [hlabel₁, htr₂'] at htr₂
      cases htr₂
      have hsorted₂ : Sorted lab2tree₂ :=
        (sorted.of_labels hmatched₁.labels).of_labels hmatched₂.labels
      have hat := childAt_of_mem hsorted₂ hchild₂
      rw [hlabel₂, hlabel₁] at hat
      rw [List.map_cons, valueAt_node_cons, hat, Option.bind_some]
      exact hvalues below hbelowMem

end ContextTree

end Llvmta
