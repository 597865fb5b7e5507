import Llvmta.AnalysisFramework.PartitioningDomain

/-!
# Context trees as maps

In a well-formed context tree only a leaf stands under the label NONE, and no node has just
such a child. The tree then stands for the map from contexts, taken by the keys of their
tokens, to the information recorded for them.
-/

namespace Llvmta

open Checked LabeledTree KeyedLabel AnalysisDom

/-- Contexts are told apart by the keys of their tokens. -/
abbrev ContextKey := List PartitionToken.Key

def Context.keys (ctx : Context) : ContextKey := ctx.getTokenList.map key

/-- As the constructor leaves it. -/
def Context.NoneFree (ctx : Context) : Prop := ∀ token ∈ ctx.getTokenList, token ≠ .none

def noneKey : PartitionToken.Key := key PartitionToken.none

theorem key_eq_noneKey {token : PartitionToken} : key token = noneKey ↔ token = .none := by
  have h := PartitionToken.equals_iff token .none
  have hkey : key token = noneKey ↔ token.equals .none = true := h.symm
  rw [hkey]
  cases token <;> simp [PartitionToken.equals, PartitionToken.getType]

theorem noneKey_notMem {labels : List PartitionToken} (h : ∀ token ∈ labels, token ≠ .none) :
    noneKey ∉ labels.map key := by
  intro hmem
  obtain ⟨token, htoken, hkey⟩ := List.mem_map.mp hmem
  exact h token htoken (key_eq_noneKey.mp hkey)

namespace ContextTree

variable {A : Type} {tree tree' : ContextTree A}

/-- The information recorded for a context, possibly under NONE. -/
def infoAt (tree : ContextTree A) (ks : ContextKey) : Option A :=
  if noneKey ∈ ks then none else (valueAt ks tree).or (valueAt (ks ++ [noneKey]) tree)

inductive WellFormed : ContextTree A → Prop
  | leaf (value : A) : WellFormed (.leaf value)
  | node (lab2tree : Children PartitionToken A) (sorted : Sorted lab2tree)
      (branches : ∃ k, k ≠ noneKey ∧ childAt lab2tree k ≠ none)
      (noneLeaf : ∀ tr, childAt lab2tree noneKey = some tr → ∃ value, tr = .leaf value)
      (children : ∀ k tr, childAt lab2tree k = some tr → WellFormed tr) :
      WellFormed (.node lab2tree)

theorem WellFormed.ordered (h : WellFormed tree) : Ordered tree := by
  induction h with
  | leaf value => exact .leaf value
  | node lab2tree sorted branches noneLeaf children ih =>
    apply Ordered.node lab2tree sorted _ ih
    rintro rfl
    obtain ⟨k, -, hk⟩ := branches
    exact hk rfl

theorem infoAt_of_mem {ks : ContextKey} (h : noneKey ∈ ks) (tree : ContextTree A) :
    infoAt tree ks = none := if_pos h

@[simp] theorem infoAt_leaf_nil (value : A) :
    infoAt (.leaf value : ContextTree A) [] = some value := rfl

@[simp] theorem infoAt_leaf_cons (value : A) (k : PartitionToken.Key) (ks : ContextKey) :
    infoAt (.leaf value : ContextTree A) (k :: ks) = none := by
  rw [infoAt]
  split_ifs <;> rfl

theorem infoAt_node_nil (lab2tree : Children PartitionToken A) :
    infoAt (.node lab2tree) [] = (childAt lab2tree noneKey).bind (valueAt []) := rfl

theorem infoAt_node_cons {k : PartitionToken.Key} (hk : k ≠ noneKey) (ks : ContextKey)
    (lab2tree : Children PartitionToken A) : infoAt (.node lab2tree) (k :: ks) =
      (childAt lab2tree k).bind fun tr => infoAt tr ks := by
  have hmem : noneKey ∈ k :: ks ↔ noneKey ∈ ks := by simp [hk.symm]
  cases hat : childAt lab2tree k <;> simp [infoAt, hmem, hat]

theorem infoAt_makeLabeledTree {labels : List PartitionToken}
    (h : ∀ token ∈ labels, token ≠ .none) (ana : A) (ks : ContextKey) :
    infoAt (makeLabeledTree labels ana) ks = if labels.map key = ks then some ana else none := by
  rw [infoAt, valueAt_makeLabeledTree, valueAt_makeLabeledTree]
  by_cases hks : noneKey ∈ ks
  · rw [if_pos hks, if_neg]
    rintro rfl
    exact noneKey_notMem h hks
  · have happend : labels.map key ≠ ks ++ [noneKey] := by
      intro heq
      exact noneKey_notMem h (heq ▸ by simp)
    rw [if_neg hks, if_neg happend, Option.or_none]

section Nodes

variable {lab2tree lab2tree' : Children PartitionToken A} {k : PartitionToken.Key}
variable {tr : ContextTree A}

/-- A node after the tree under one label has changed, or was added. -/
theorem WellFormed.update (hsorted : Sorted lab2tree')
    (hat : ∀ k', childAt lab2tree' k' = if k = k' then some tr else childAt lab2tree k')
    (hbranches : ∃ k', k' ≠ noneKey ∧ childAt lab2tree' k' ≠ none)
    (noneLeaf : ∀ tr, childAt lab2tree noneKey = some tr → ∃ value, tr = .leaf value)
    (children : ∀ k' tr, childAt lab2tree k' = some tr → WellFormed tr)
    (htr : WellFormed tr) (hleaf : k = noneKey → ∃ value, tr = .leaf value) :
    WellFormed (.node lab2tree') := by
  apply WellFormed.node lab2tree' hsorted hbranches
  · intro tr' htr'
    rw [hat] at htr'
    split_ifs at htr' with hk
    · cases htr'
      exact hleaf hk
    · exact noneLeaf tr' htr'
  · intro k' tr' htr'
    rw [hat] at htr'
    split_ifs at htr' with hk
    · cases htr'
      exact htr
    · exact children k' tr' htr'

theorem WellFormed.update_node (h : WellFormed (.node lab2tree)) (hsorted : Sorted lab2tree')
    (hat : ∀ k', childAt lab2tree' k' = if k = k' then some tr else childAt lab2tree k')
    (htr : WellFormed tr) (hleaf : k = noneKey → ∃ value, tr = .leaf value) :
    WellFormed (.node lab2tree') := by
  cases h with
  | node _ sorted branches noneLeaf children =>
    apply WellFormed.update hsorted hat _ noneLeaf children htr hleaf
    obtain ⟨k', hk', hbranch⟩ := branches
    refine ⟨k', hk', ?_⟩
    rw [hat]
    split_ifs
    · exact Option.some_ne_none tr
    · exact hbranch

/-- Below another label the node is as before. -/
theorem infoAt_update_of_ne
    (hat : ∀ k', childAt lab2tree' k' = if k = k' then some tr else childAt lab2tree k')
    {k' : PartitionToken.Key} (hk : k ≠ k') (ks : ContextKey) :
    infoAt (.node lab2tree') (k' :: ks) = infoAt (.node lab2tree) (k' :: ks) := by
  by_cases hnone : k' = noneKey
  · rw [infoAt_of_mem (by simp [hnone]), infoAt_of_mem (by simp [hnone])]
  · rw [infoAt_node_cons hnone, infoAt_node_cons hnone, hat, if_neg hk]

theorem WellFormed.makeLabeledTree {labels : List PartitionToken}
    (h : ∀ token ∈ labels, token ≠ .none) (ana : A) :
    WellFormed (LabeledTree.makeLabeledTree labels ana) := by
  induction labels with
  | nil => exact .leaf ana
  | cons label labels ih =>
    have hlabel : key label ≠ noneKey := fun heq =>
      h label List.mem_cons_self (key_eq_noneKey.mp heq)
    have hat (k' : PartitionToken.Key) :
        childAt [(label, LabeledTree.makeLabeledTree labels ana)] k' =
          if key label = k' then some (LabeledTree.makeLabeledTree labels ana)
          else childAt [] k' := childAt_singleton ..
    have hsorted : Sorted [(label, LabeledTree.makeLabeledTree labels ana)] :=
      List.pairwise_singleton _ _
    apply WellFormed.update hsorted hat
    · exact ⟨key label, hlabel, by simp [hat]⟩
    · intro tr htr
      cases htr
    · intro k' tr htr
      cases htr
    · exact ih fun token htoken => h token (List.mem_cons_of_mem label htoken)
    · exact fun heq => absurd heq hlabel

end Nodes

section Additions

variable [AnalysisDom A]

/-- The change that is reported: a new context or a join that changes a value. -/
def reports (old : Option A) (ana : A) : Bool := old.elim true (changes · ana)

/-- What is shown of `add`: it returns, keeps the tree well-formed, and adds an entry. -/
def Adds (labels : List PartitionToken) (tree : ContextTree A) (ana : A) : Prop :=
  ∃ tree', add labels tree ana = .ok (tree', reports (infoAt tree (labels.map key)) ana) ∧
    WellFormed tree' ∧
    infoAt tree' = AddedEntries.add join (infoAt tree) (labels.map key, ana)

theorem adds_leaf_nil (value ana : A) : Adds [] (.leaf value) ana := by
  refine ⟨.leaf (join value ana), rfl, .leaf _, ?_⟩
  apply AddedEntries.eq_add
  · rfl
  · rintro (_ | ⟨k, ks⟩) h
    · exact absurd rfl h
    · rw [infoAt_leaf_cons, infoAt_leaf_cons]

/-- A leaf becomes a node whose NONE-child keeps its value. -/
theorem adds_leaf_cons {label : PartitionToken} {labels : List PartitionToken}
    (h : ∀ token ∈ label :: labels, token ≠ .none) (value ana : A) :
    Adds (label :: labels) (.leaf value) ana := by
  have hlabel : key label ≠ noneKey := fun heq =>
    h label List.mem_cons_self (key_eq_noneKey.mp heq)
  have hlabels : ∀ token ∈ labels, token ≠ .none := fun token htoken =>
    h token (List.mem_cons_of_mem label htoken)
  let kept : Children PartitionToken A := [(.none, .leaf value)]
  have hkept (k' : PartitionToken.Key) :
      childAt kept k' = if noneKey = k' then some (.leaf value) else none := childAt_singleton ..
  have hnone : childAt kept (key label) = none := by rw [hkept, if_neg hlabel.symm]
  have hsorted : Sorted kept := List.pairwise_singleton _ _
  have hat := childAt_insertChild hsorted label hnone (makeLabeledTree labels ana)
  refine ⟨.node (insertChild label (makeLabeledTree labels ana) kept), ?_, ?_, ?_⟩
  · have hempty : addChild [] PartitionToken.none (.leaf value : ContextTree A) = .ok kept := rfl
    rw [add, hempty, ok_bind, addChild_eq hnone, List.map_cons, infoAt_leaf_cons]
    rfl
  · apply WellFormed.update (hsorted.insertChild hnone) hat
    · exact ⟨key label, hlabel, by simp [hat]⟩
    · intro tr htr
      rw [hkept, if_pos rfl] at htr
      cases htr
      exact ⟨value, rfl⟩
    · intro k' tr htr
      rw [hkept] at htr
      split_ifs at htr
      cases htr
      exact .leaf value
    · exact WellFormed.makeLabeledTree hlabels ana
    · exact fun heq => absurd heq hlabel
  · apply AddedEntries.eq_add
    · rw [List.map_cons, infoAt_node_cons hlabel, hat, if_pos rfl, Option.bind_some,
        infoAt_makeLabeledTree hlabels, if_pos rfl, infoAt_leaf_cons]
      rfl
    · rintro (_ | ⟨k, ks⟩) hne
      · rw [infoAt_node_nil, hat, if_neg hlabel, hkept, if_pos rfl]
        rfl
      · rw [infoAt_leaf_cons]
        by_cases hk : k = noneKey
        · rw [infoAt_of_mem (by simp [hk])]
        · rw [infoAt_node_cons hk, hat]
          split_ifs with heq
          · subst heq
            rw [Option.bind_some, infoAt_makeLabeledTree hlabels, if_neg]
            exact fun heq => hne (by rw [List.map_cons, heq])
          · rw [hkept, if_neg fun heq => hk heq.symm]
            rfl

/-- The entry that a new or changed NONE-child holds. -/
theorem infoAt_update_none {lab2tree lab2tree' : Children PartitionToken A} {value ana : A}
    (hat : ∀ k, childAt lab2tree' k =
      if noneKey = k then some (.leaf value) else childAt lab2tree k)
    (hvalue : (infoAt (.node lab2tree) []).merge join (some ana) = some value) :
    infoAt (.node lab2tree') = AddedEntries.add join (infoAt (.node lab2tree)) ([], ana) := by
  apply AddedEntries.eq_add
  · rw [hvalue, infoAt_node_nil, hat, if_pos rfl]
    rfl
  · rintro (_ | ⟨k, ks⟩) hne
    · exact absurd rfl hne
    · by_cases hk : k = noneKey
      · rw [infoAt_of_mem (by simp [hk]), infoAt_of_mem (by simp [hk])]
      · exact infoAt_update_of_ne hat (fun heq => hk heq.symm) ks

/-- A context that ends at a node is recorded under NONE. -/
theorem adds_node_nil {lab2tree : Children PartitionToken A} (h : WellFormed (.node lab2tree))
    (ana : A) : Adds [] (.node lab2tree) ana := by
  have hget : getChildWithEqualLabel lab2tree .none = childAt lab2tree noneKey :=
    getChildWithEqualLabel_eq lab2tree .none
  cases h with
  | node _ sorted branches noneLeaf children =>
    have h := WellFormed.node lab2tree sorted branches noneLeaf children
    cases hnone : childAt lab2tree noneKey with
    | none =>
      have hat := childAt_insertChild sorted PartitionToken.none hnone (.leaf ana)
      refine ⟨.node (insertChild .none (.leaf ana) lab2tree), ?_, ?_, ?_⟩
      · rw [add, hget, hnone, List.map_nil, infoAt_node_nil, hnone]
        simp only
        rw [addChild_eq hnone]
        rfl
      · exact h.update_node (sorted.insertChild hnone) hat (.leaf ana) fun _ => ⟨ana, rfl⟩
      · apply infoAt_update_none hat
        rw [infoAt_node_nil, hnone]
        rfl
    | some tr =>
      obtain ⟨value, rfl⟩ := noneLeaf tr hnone
      have hat := childAt_setChildWithEqualLabel PartitionToken.none hnone
        (.leaf (join value ana))
      refine ⟨.node (setChildWithEqualLabel .none (.leaf (join value ana)) lab2tree), ?_, ?_, ?_⟩
      · rw [add, hget, hnone, List.map_nil, infoAt_node_nil, hnone]
        rfl
      · exact h.update_node (sorted.of_labels (keys_setChildWithEqualLabel ..)) hat (.leaf _)
          fun _ => ⟨_, rfl⟩
      · apply infoAt_update_none hat
        rw [infoAt_node_nil, hnone]
        rfl

/-- The entry that a new or changed subtree adds below its label. -/
theorem infoAt_update_subtree {lab2tree lab2tree' : Children PartitionToken A}
    {label : PartitionToken} (hlabel : key label ≠ noneKey) {tr : ContextTree A}
    {ks : ContextKey} {ana : A}
    (hat : ∀ k, childAt lab2tree' k = if key label = k then some tr else childAt lab2tree k)
    (htr : infoAt tr =
      AddedEntries.add join (fun ks => infoAt (.node lab2tree) (key label :: ks)) (ks, ana)) :
    infoAt (.node lab2tree') =
      AddedEntries.add join (infoAt (.node lab2tree)) (key label :: ks, ana) := by
  have hbelow (ks' : ContextKey) :
      infoAt (.node lab2tree') (key label :: ks') = infoAt tr ks' := by
    rw [infoAt_node_cons hlabel, hat, if_pos rfl, Option.bind_some]
  apply AddedEntries.eq_add
  · rw [hbelow, htr]
    exact AddedEntries.add_self _ (ks, ana)
  · rintro (_ | ⟨k, ks'⟩) hne
    · rw [infoAt_node_nil, infoAt_node_nil, hat, if_neg hlabel]
    · by_cases hk : key label = k
      · subst hk
        rw [hbelow, htr]
        exact AddedEntries.add_of_ne (fun heq => hne (congrArg _ heq)) _
      · exact infoAt_update_of_ne hat hk ks'

theorem adds_of_wellFormed {labels : List PartitionToken} (hlabels : ∀ token ∈ labels, token ≠ .none)
    (h : WellFormed tree) (ana : A) : Adds labels tree ana := by
  induction labels generalizing tree with
  | nil =>
    cases tree with
    | leaf value => exact adds_leaf_nil value ana
    | node lab2tree => exact adds_node_nil h ana
  | cons label labels ih =>
    cases tree with
    | leaf value => exact adds_leaf_cons hlabels value ana
    | node lab2tree =>
      have hlabel : key label ≠ noneKey := fun heq =>
        hlabels label List.mem_cons_self (key_eq_noneKey.mp heq)
      have hrest : ∀ token ∈ labels, token ≠ .none := fun token htoken =>
        hlabels token (List.mem_cons_of_mem label htoken)
      cases h with
      | node _ sorted branches noneLeaf children =>
        have h := WellFormed.node lab2tree sorted branches noneLeaf children
        cases hchild : childAt lab2tree (key label) with
        | none =>
          have hat := childAt_insertChild sorted label hchild (makeLabeledTree labels ana)
          refine ⟨.node (insertChild label (makeLabeledTree labels ana) lab2tree), ?_, ?_, ?_⟩
          · rw [add, getChildWithEqualLabel_eq, hchild, List.map_cons, infoAt_node_cons hlabel,
              hchild]
            simp only
            rw [addChild_eq hchild]
            rfl
          · exact h.update_node (sorted.insertChild hchild) hat
              (WellFormed.makeLabeledTree hrest ana) fun heq => absurd heq hlabel
          · apply infoAt_update_subtree hlabel hat
            funext ks
            rw [infoAt_makeLabeledTree hrest, AddedEntries.add, Function.update_apply]
            simp only [infoAt_node_cons hlabel, hchild, Option.bind_none, eq_comm]
            rfl
        | some subtree =>
          obtain ⟨subtree', hadd, hwell, hinfo⟩ := ih hrest (children _ _ hchild)
          have hat := childAt_setChildWithEqualLabel label hchild subtree'
          have hold (ks : ContextKey) :
              infoAt (.node lab2tree) (key label :: ks) = infoAt subtree ks := by
            rw [infoAt_node_cons hlabel, hchild, Option.bind_some]
          refine ⟨.node (setChildWithEqualLabel label subtree' lab2tree), ?_, ?_, ?_⟩
          · rw [add, getChildWithEqualLabel_eq, hchild, List.map_cons, hold]
            simp only
            rw [hadd]
            rfl
          · exact h.update_node (sorted.of_labels (keys_setChildWithEqualLabel ..)) hat hwell
              fun heq => absurd heq hlabel
          · apply infoAt_update_subtree hlabel hat
            simp only [hold]
            exact hinfo

end Additions

section Paths

/-- No leaf is above another one. -/
theorem valueAt_append {p q : ContextKey} {a : A} (h : valueAt p tree = some a) (hq : q ≠ []) :
    valueAt (p ++ q) tree = none := by
  induction p generalizing tree with
  | nil =>
    cases tree with
    | leaf value =>
      cases q with
      | nil => exact absurd rfl hq
      | cons k q => rfl
    | node lab2tree => cases h
  | cons k p ih =>
    cases tree with
    | leaf value => cases h
    | node lab2tree =>
      rw [valueAt_node_cons] at h
      obtain ⟨tr, htr, hvalue⟩ := Option.bind_eq_some_iff.mp h
      rw [List.cons_append, valueAt_node_cons, htr, Option.bind_some, ih hvalue]

/-- A path has NONE at most at its end. -/
theorem WellFormed.path (h : WellFormed tree) {p : ContextKey} {a : A}
    (hp : valueAt p tree = some a) : ∃ c, noneKey ∉ c ∧ (p = c ∨ p = c ++ [noneKey]) := by
  induction p generalizing tree with
  | nil => exact ⟨[], List.not_mem_nil, .inl rfl⟩
  | cons k p ih =>
    cases h with
    | leaf value => cases hp
    | node lab2tree sorted branches noneLeaf children =>
      rw [valueAt_node_cons] at hp
      obtain ⟨tr, htr, hvalue⟩ := Option.bind_eq_some_iff.mp hp
      by_cases hk : k = noneKey
      · subst hk
        obtain ⟨value, rfl⟩ := noneLeaf tr htr
        cases p with
        | nil => exact ⟨[], List.not_mem_nil, .inr rfl⟩
        | cons k' p => cases hvalue
      · obtain ⟨c, hc, hform⟩ := ih (children k tr htr) hvalue
        refine ⟨k :: c, ?_, ?_⟩
        · simp [hc, Ne.symm hk]
        · exact hform.imp (congrArg (List.cons k)) (congrArg (List.cons k))

theorem WellFormed.exists_infoAt (h : WellFormed tree) : ∃ ks, infoAt tree ks ≠ none := by
  obtain ⟨p, a, hp⟩ := h.ordered.exists_valueAt
  obtain ⟨c, hc, rfl | rfl⟩ := h.path hp
  · exact ⟨p, by simp [infoAt, hc, hp]⟩
  · exact ⟨c, by simp [infoAt, hc, hp]⟩

/-- A longer context is recorded. -/
def Extended (tree : ContextTree A) (c : ContextKey) : Prop :=
  ∃ ks, ks ≠ [] ∧ infoAt tree (c ++ ks) ≠ none

theorem valueAt_of_extended {c : ContextKey} (h : Extended tree c) : valueAt c tree = none := by
  by_contra hsome
  obtain ⟨a, ha⟩ := Option.ne_none_iff_exists'.mp hsome
  obtain ⟨ks, hks, hinfo⟩ := h
  apply hinfo
  rw [infoAt, valueAt_append ha hks, List.append_assoc, valueAt_append ha (by simp)]
  exact ite_self none

theorem WellFormed.extended_of_node {lab2tree : Children PartitionToken A}
    (h : WellFormed (.node lab2tree)) : Extended (.node lab2tree) [] := by
  cases h with
  | node _ sorted branches noneLeaf children =>
    obtain ⟨k, hk, hbranch⟩ := branches
    obtain ⟨tr, htr⟩ := Option.ne_none_iff_exists'.mp hbranch
    obtain ⟨ks, hks⟩ := (children k tr htr).exists_infoAt
    refine ⟨k :: ks, List.cons_ne_nil k ks, ?_⟩
    rwa [List.nil_append, infoAt_node_cons hk, htr, Option.bind_some]

theorem Extended.cons {lab2tree : Children PartitionToken A} {k : PartitionToken.Key}
    (hk : k ≠ noneKey) {tr : ContextTree A} (htr : childAt lab2tree k = some tr) {c : ContextKey} :
    Extended (.node lab2tree) (k :: c) ↔ Extended tr c := by
  simp only [Extended, List.cons_append, infoAt_node_cons hk, htr, Option.bind_some]

/-- Only a context with a longer one is recorded under NONE. -/
theorem WellFormed.extended_of_none (h : WellFormed tree) {c : ContextKey} (hc : noneKey ∉ c)
    (hvalue : valueAt (c ++ [noneKey]) tree ≠ none) : Extended tree c := by
  induction c generalizing tree with
  | nil =>
    cases tree with
    | leaf value => exact absurd rfl hvalue
    | node lab2tree => exact h.extended_of_node
  | cons k c ih =>
    have hk : noneKey ≠ k := List.ne_of_not_mem_cons hc
    have hc : noneKey ∉ c := List.not_mem_of_not_mem_cons hc
    cases h with
    | leaf value => exact absurd rfl hvalue
    | node lab2tree sorted branches noneLeaf children =>
      rw [List.cons_append, valueAt_node_cons] at hvalue
      cases htr : childAt lab2tree k with
      | none => simp [htr] at hvalue
      | some tr =>
        rw [htr, Option.bind_some] at hvalue
        exact (Extended.cons hk.symm htr).mpr (ih (children k tr htr) hc hvalue)

end Paths

section Contexts

theorem clearFrom_zero (tok : PartitionToken → Bool) (found : ℕ) (tokens : List PartitionToken) :
    Context.clearFrom tok 0 found tokens = tokens.filter fun token => !tok token := by
  induction tokens generalizing found with
  | nil => rfl
  | cons token tokens ih =>
    rw [Context.clearFrom, ih, List.filter_cons]
    simp

theorem getTokenList_ofPath (path : List PartitionToken) :
    (Context.ofPath path).getTokenList = path.filter fun token => token != .none := by
  have hlist : (Context.ofPath path).getTokenList =
      (Context.clearFrom (fun token => token == .none) 0 0 path.reverse).reverse := rfl
  rw [hlist, clearFrom_zero, List.filter_reverse, List.reverse_reverse]
  rfl

theorem noneFree_ofPath (path : List PartitionToken) : (Context.ofPath path).NoneFree := by
  intro token htoken
  rw [getTokenList_ofPath] at htoken
  simpa using (List.mem_filter.mp htoken).2

theorem keys_ofPath (path : List PartitionToken) :
    (Context.ofPath path).keys = (path.map key).filter fun k => k ≠ noneKey := by
  rw [Context.keys, getTokenList_ofPath, List.filter_map]
  congr 1
  apply List.filter_congr
  intro token _
  rw [Bool.eq_iff_iff]
  simp [key_eq_noneKey]

/-- The leaves by the contexts of their paths. -/
def contexts (tree : ContextTree A) : List (ContextKey × A) :=
  (leaves [] tree).map fun leaf => ((Context.ofPath leaf.1).keys, leaf.2)

theorem contexts_eq (tree : ContextTree A) : contexts tree =
    (keyedLeaves tree).map fun e => (e.1.filter fun k => k ≠ noneKey, e.2) := by
  rw [contexts, keyedLeaves, List.map_map]
  apply List.map_congr_left
  intro leaf _
  rw [keys_ofPath]
  rfl

theorem filter_noneKey {c : ContextKey} (hc : noneKey ∉ c) :
    (c.filter fun k => k ≠ noneKey) = c := by
  apply List.filter_eq_self.mpr
  intro k hk
  exact decide_eq_true fun heq => hc (heq ▸ hk)

theorem filter_append_noneKey {c : ContextKey} (hc : noneKey ∉ c) :
    ((c ++ [noneKey]).filter fun k => k ≠ noneKey) = c := by
  rw [List.filter_append, filter_noneKey hc]
  simp

/-- A path leads to the information of its context. -/
theorem WellFormed.infoAt_of_valueAt (h : WellFormed tree) {p : ContextKey} {a : A}
    (hp : valueAt p tree = some a) : infoAt tree (p.filter fun k => k ≠ noneKey) = some a := by
  obtain ⟨c, hc, rfl | rfl⟩ := h.path hp
  · rw [filter_noneKey hc, infoAt, if_neg hc, hp, Option.some_or]
  · have hnone := valueAt_of_extended (h.extended_of_none hc (by simp [hp]))
    rw [filter_append_noneKey hc, infoAt, if_neg hc, hp, hnone, Option.none_or]

/-- A walk over a well-formed tree lists the contexts with their information, each once. -/
theorem WellFormed.lists (h : WellFormed tree) :
    AddedEntries.Lists (contexts tree) (infoAt tree) := by
  have hlists := h.ordered.lists
  rw [contexts_eq]
  constructor
  · rw [List.map_map]
    have hfst : (Prod.fst ∘ fun e : ContextKey × A => (e.1.filter fun k => k ≠ noneKey, e.2)) =
        (fun p : ContextKey => p.filter fun k => k ≠ noneKey) ∘ Prod.fst := rfl
    rw [hfst, ← List.map_map]
    apply hlists.nodup.map_on
    intro p hp p' hp' heq
    obtain ⟨e, he, rfl⟩ := List.mem_map.mp hp
    obtain ⟨e', he', rfl⟩ := List.mem_map.mp hp'
    have hvalue := hlists.of_mem he
    have hvalue' := hlists.of_mem he'
    have hextended {c : ContextKey} {a : A} (hc : noneKey ∉ c)
        (ha : valueAt (c ++ [noneKey]) tree = some a) : valueAt c tree = none :=
      valueAt_of_extended (h.extended_of_none hc (by simp [ha]))
    obtain ⟨c, hc, hform⟩ := h.path hvalue
    obtain ⟨c', hc', hform'⟩ := h.path hvalue'
    rcases hform with rfl | hform <;> rcases hform' with rfl | hform'
    · rwa [filter_noneKey hc, filter_noneKey hc'] at heq
    · rw [filter_noneKey hc, hform', filter_append_noneKey hc'] at heq
      rw [hform', ← heq] at hvalue'
      rw [hextended hc hvalue'] at hvalue
      cases hvalue
    · rw [filter_noneKey hc', hform, filter_append_noneKey hc] at heq
      rw [hform, heq] at hvalue
      rw [hextended hc' hvalue] at hvalue'
      cases hvalue'
    · rw [hform, hform', filter_append_noneKey hc, filter_append_noneKey hc'] at heq
      rw [hform, hform', heq]
  · intro ks a
    rw [List.mem_map]
    constructor
    · rintro ⟨e, he, heq⟩
      cases heq
      exact h.infoAt_of_valueAt (hlists.of_mem he)
    · intro hinfo
      rw [infoAt] at hinfo
      split_ifs at hinfo with hks
      rcases Option.or_eq_some_iff.mp hinfo with hvalue | ⟨-, hvalue⟩
      · exact ⟨(ks, a), (hlists.mem_iff _ _).mpr hvalue, by rw [filter_noneKey hks]⟩
      · exact ⟨(ks ++ [noneKey], a), (hlists.mem_iff _ _).mpr hvalue,
          by rw [filter_append_noneKey hks]⟩

end Contexts

section Equality

variable {R : A → A → Prop}

theorem rel_or {o₁ o₂ o₁' o₂' : Option A} (h₁ : Option.Rel R o₁ o₁') (h₂ : Option.Rel R o₂ o₂') :
    Option.Rel R (o₁.or o₂) (o₁'.or o₂') := by
  cases h₁ with
  | some h => exact .some h
  | none => exact h₂

theorem none_iff_of_rel {o o' : Option A} (h : Option.Rel R o o') : o = none ↔ o' = none := by
  cases h <;> simp

/-- Where the maps of two trees agree, the same contexts have longer ones. -/
theorem Extended.of_rel (h : ∀ ks, Option.Rel R (infoAt tree ks) (infoAt tree' ks))
    {c : ContextKey} : Extended tree c ↔ Extended tree' c := by
  have hnone (ks : ContextKey) : infoAt tree ks = none ↔ infoAt tree' ks = none :=
    none_iff_of_rel (h ks)
  simp only [Extended, ne_eq, hnone]

/-- The map of a well-formed tree determines which leaves it has. -/
theorem rel_infoAt_iff (h : WellFormed tree) (h' : WellFormed tree') :
    (∀ p, Option.Rel R (valueAt p tree) (valueAt p tree')) ↔
      ∀ ks, Option.Rel R (infoAt tree ks) (infoAt tree' ks) := by
  constructor
  · intro hrel ks
    rw [infoAt, infoAt]
    split_ifs
    · exact .none
    · exact rel_or (hrel ks) (hrel _)
  · intro hrel p
    have hvalue {c : ContextKey} (hc : noneKey ∉ c) :
        Option.Rel R (valueAt c tree) (valueAt c tree') ∧
          Option.Rel R (valueAt (c ++ [noneKey]) tree) (valueAt (c ++ [noneKey]) tree') := by
      have hinfo := hrel c
      rw [infoAt, infoAt, if_neg hc, if_neg hc] at hinfo
      by_cases hext : Extended tree c
      · have hext' := (Extended.of_rel hrel).mp hext
        rw [valueAt_of_extended hext, valueAt_of_extended hext'] at hinfo ⊢
        exact ⟨.none, hinfo⟩
      · have hext' : ¬Extended tree' c := fun hext' => hext ((Extended.of_rel hrel).mpr hext')
        have hnone : valueAt (c ++ [noneKey]) tree = none :=
          not_not.mp fun hne => hext (h.extended_of_none hc hne)
        have hnone' : valueAt (c ++ [noneKey]) tree' = none :=
          not_not.mp fun hne => hext' (h'.extended_of_none hc hne)
        rw [hnone, hnone', Option.or_none, Option.or_none] at hinfo
        rw [hnone, hnone']
        exact ⟨hinfo, .none⟩
    cases hp : valueAt p tree with
    | some a =>
      rw [← hp]
      obtain ⟨c, hc, rfl | rfl⟩ := h.path hp
      · exact (hvalue hc).1
      · exact (hvalue hc).2
    | none =>
      cases hp' : valueAt p tree' with
      | none => exact .none
      | some a =>
        rw [← hp, ← hp']
        obtain ⟨c, hc, rfl | rfl⟩ := h'.path hp'
        · exact (hvalue hc).1
        · exact (hvalue hc).2

end Equality

section Shapes

/-- The trees have the same labels at the same places. -/
inductive SameShape : ContextTree A → ContextTree A → Prop
  | leaf (value value' : A) : SameShape (.leaf value) (.leaf value')
  | node (lab2tree lab2tree' : Children PartitionToken A)
      (labels : lab2tree'.map Prod.fst = lab2tree.map Prod.fst)
      (children : ∀ k tr tr', childAt lab2tree k = some tr → childAt lab2tree' k = some tr' →
        SameShape tr tr') : SameShape (.node lab2tree) (.node lab2tree')

theorem childAt_eq_none_iff {lab2tree : Children PartitionToken A} {k : PartitionToken.Key} :
    childAt lab2tree k = none ↔ k ∉ (lab2tree.map Prod.fst).map key := by
  induction lab2tree with
  | nil => simp [childAt, entries, OrderedMap.findEntry]
  | cons child lab2tree ih =>
    rw [childAt_cons]
    by_cases h : key child.1 = k
    · simp [h]
    · rw [if_neg h, ih, List.map_cons, List.map_cons, List.mem_cons, not_or]
      exact ⟨fun hmem => ⟨fun heq => h heq.symm, hmem⟩, And.right⟩

theorem WellFormed.of_sameShape (h : WellFormed tree) (hshape : SameShape tree tree') :
    WellFormed tree' := by
  induction h generalizing tree' with
  | leaf value =>
    cases hshape with
    | leaf _ value' => exact .leaf value'
  | node lab2tree sorted branches noneLeaf children ih =>
    cases hshape with
    | node _ lab2tree' labels hchildren =>
      have hnone {k : PartitionToken.Key} :
          childAt lab2tree' k = none ↔ childAt lab2tree k = none := by
        rw [childAt_eq_none_iff, childAt_eq_none_iff, labels]
      have hsome {k : PartitionToken.Key} {tr' : ContextTree A}
          (htr' : childAt lab2tree' k = some tr') : ∃ tr, childAt lab2tree k = some tr := by
        apply Option.ne_none_iff_exists'.mp
        intro hk
        rw [hnone.mpr hk] at htr'
        cases htr'
      apply WellFormed.node lab2tree' (sorted.of_labels labels)
      · obtain ⟨k, hk, hbranch⟩ := branches
        exact ⟨k, hk, fun heq => hbranch (hnone.mp heq)⟩
      · intro tr' htr'
        obtain ⟨tr, htr⟩ := hsome htr'
        obtain ⟨value, rfl⟩ := noneLeaf tr htr
        have hleaf := hchildren _ _ _ htr htr'
        cases hleaf with
        | leaf _ value' => exact ⟨value', rfl⟩
      · intro k tr' htr'
        obtain ⟨tr, htr⟩ := hsome htr'
        exact ih k tr htr (hchildren _ _ _ htr htr')

end Shapes

end ContextTree

end Llvmta
