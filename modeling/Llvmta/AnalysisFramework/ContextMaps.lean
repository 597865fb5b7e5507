import Llvmta.AnalysisFramework.ContextTrees

/-!
# Operations on context maps

On well-formed trees the operations of the partitioning domain are operations on the map
from contexts to their information: an addition of one entry, a join of all entries of
another map, a lookup, a comparison. No assertion about the tree fails.
-/

namespace Llvmta

open Checked LabeledTree KeyedLabel AnalysisDom

variable {A : Type}

namespace ContextTree

variable {tree : ContextTree A}

/-- The lookups find what is recorded. Otherwise a context ends at a node if and only if a
longer one is recorded. -/
theorem walkDown_spec {P : Except Fault A → Prop} {missing : Except Fault A}
    {left : PartitionToken → Except Fault A} {tokens : List PartitionToken}
    (hmissing : P missing) (hleft : ∀ token ∈ tokens, P (left token))
    (hfree : ∀ token ∈ tokens, token ≠ .none) (h : WellFormed tree) :
    (∀ a, infoAt tree (tokens.map key) = some a → walkDown missing left tokens tree = .ok a) ∧
    (infoAt tree (tokens.map key) = none → Extended tree (tokens.map key) →
      walkDown missing left tokens tree =
        .error (.assertion "Context empty but internal node without none child")) ∧
    (infoAt tree (tokens.map key) = none → ¬Extended tree (tokens.map key) →
      P (walkDown missing left tokens tree)) := by
  induction tokens generalizing tree with
  | nil =>
    cases tree with
    | leaf value =>
      simp only [List.map_nil, infoAt_leaf_nil, walkDown]
      simp
    | node lab2tree =>
      have hext := h.extended_of_node
      have hget : getChildWithEqualLabel lab2tree .none = childAt lab2tree noneKey :=
        getChildWithEqualLabel_eq lab2tree .none
      cases h with
      | node _ sorted branches noneLeaf children =>
        rw [List.map_nil, infoAt_node_nil, walkDown, hget]
        cases hnone : childAt lab2tree noneKey with
        | none => simp [hext]
        | some tr =>
          obtain ⟨value, rfl⟩ := noneLeaf tr hnone
          simp
  | cons topmost tokens ih =>
    have hk : key topmost ≠ noneKey := fun heq =>
      hfree topmost List.mem_cons_self (key_eq_noneKey.mp heq)
    cases h with
    | leaf value =>
      rw [List.map_cons, infoAt_leaf_cons, walkDown]
      have hext : ¬Extended (.leaf value : ContextTree A) (key topmost :: tokens.map key) := by
        rintro ⟨ks, -, hks⟩
        rw [List.cons_append, infoAt_leaf_cons] at hks
        exact hks rfl
      simp [hext, hleft topmost List.mem_cons_self]
    | node lab2tree sorted branches noneLeaf children =>
      rw [List.map_cons, infoAt_node_cons hk, walkDown, getChildWithEqualLabel_eq]
      cases hchild : childAt lab2tree (key topmost) with
      | none =>
        have hext : ¬Extended (.node lab2tree) (key topmost :: tokens.map key) := by
          rintro ⟨ks, -, hks⟩
          rw [List.cons_append, infoAt_node_cons hk, hchild] at hks
          exact hks rfl
        simp [hext, hmissing]
      | some tr =>
        rw [Extended.cons hk hchild]
        exact ih (fun token htoken => hleft token (List.mem_cons_of_mem topmost htoken))
          (fun token htoken => hfree token (List.mem_cons_of_mem topmost htoken))
          (children _ tr hchild)

end ContextTree

namespace Context

theorem equals_iff (ctx ctx' : Context) : ctx.equals ctx' = true ↔ ctx.keys = ctx'.keys := by
  obtain ⟨tokens⟩ := ctx
  obtain ⟨tokens'⟩ := ctx'
  simp only [equals, keys, Bool.and_eq_true, beq_iff_eq]
  induction tokens generalizing tokens' with
  | nil => cases tokens' <;> simp
  | cons token tokens ih =>
    cases tokens' with
    | nil => simp
    | cons token' tokens' =>
      have htoken : token.equals token' = true ↔ key token = key token' :=
        PartitionToken.equals_iff token token'
      simp only [List.length_cons, Nat.add_right_cancel_iff, List.zip_cons_cons, List.all_cons,
        Bool.and_eq_true, htoken, List.map_cons, List.cons.injEq, ← ih tokens']
      tauto

end Context

namespace PartitioningDomain

open ContextTree

variable {pd pd' other : PartitioningDomain A}

/-- The map that the domain element stands for. -/
def info (pd : PartitioningDomain A) (ks : ContextKey) : Option A :=
  pd.partitionedAnalysisInfo.bind fun tree => infoAt tree ks

def WellFormed (pd : PartitioningDomain A) : Prop :=
  ∀ tree, pd.partitionedAnalysisInfo = some tree → ContextTree.WellFormed tree

/-- A longer context is recorded. -/
def Extended (pd : PartitioningDomain A) (c : ContextKey) : Prop :=
  ∃ ks, ks ≠ [] ∧ pd.info (c ++ ks) ≠ none

theorem WellFormed.some {tree : ContextTree A} (h : ContextTree.WellFormed tree) :
    WellFormed ⟨some tree⟩ := by
  intro tree' heq
  cases heq
  exact h

/-- The leaves of a tree with their contexts. -/
def listed (tree : ContextTree A) : List (Context × A) :=
  (leaves [] tree).map fun leaf => (Context.ofPath leaf.1, leaf.2)

theorem keys_listed (tree : ContextTree A) :
    (listed tree).map (fun e => (e.1.keys, e.2)) = contexts tree := by
  rw [listed, contexts, List.map_map]
  rfl

theorem noneFree_listed {tree : ContextTree A} {e : Context × A} (he : e ∈ listed tree) :
    e.1.NoneFree := by
  obtain ⟨leaf, -, rfl⟩ := List.mem_map.mp he
  exact noneFree_ofPath leaf.1

theorem insertInfo_leaves {found : List (Context × A)} {path : List (List PartitionToken × A)}
    (h : (found.map (fun e => e.1.keys) ++ path.map fun leaf =>
      (Context.ofPath leaf.1).keys).Nodup) : path.foldlM insertInfo found =
        .ok (found ++ path.map fun leaf => (Context.ofPath leaf.1, leaf.2)) := by
  induction path generalizing found with
  | nil => simp [pure, Except.pure]
  | cons leaf path ih =>
    have hnew : (!found.any fun e => e.1.equals (Context.ofPath leaf.1)) = true := by
      rw [Bool.not_eq_true', List.any_eq_false]
      intro e he hequals
      have hkeys := (Context.equals_iff _ _).mp hequals
      exact (List.nodup_append.mp h).2.2 _ (List.mem_map_of_mem he) _ List.mem_cons_self hkeys
    rw [List.foldlM_cons, insertInfo, assertThat_of hnew, ok_bind, ok_bind, ih]
    · simp
    · simpa using h

theorem getAnalysisInfoPerContext_eq {tree : ContextTree A} (h : ContextTree.WellFormed tree) :
    getAnalysisInfoPerContext ⟨some tree⟩ = .ok (listed tree) := by
  apply insertInfo_leaves
  have hnodup := h.lists.nodup
  rw [contexts, List.map_map] at hnodup
  exact hnodup

/-- The recorded contexts are gathered with their information, each once. -/
theorem getAnalysisInfoPerContext_spec (h : pd.WellFormed) (hpd : pd.isBottom = false) :
    ∃ l, pd.getAnalysisInfoPerContext = .ok l ∧ (∀ e ∈ l, e.1.NoneFree) ∧
      AddedEntries.Lists (l.map fun e => (e.1.keys, e.2)) pd.info := by
  obtain ⟨_ | tree⟩ := pd
  · cases hpd
  · have hwell := h tree rfl
    refine ⟨listed tree, getAnalysisInfoPerContext_eq hwell, fun e he => noneFree_listed he, ?_⟩
    rw [keys_listed]
    exact hwell.lists

variable [AnalysisDom A]

theorem wellFormed_ofInit (i : AnaDomInit) : (ofInit i : PartitioningDomain A).WellFormed := by
  cases i with
  | bottom =>
    intro tree heq
    cases heq
  | top => exact .some (.leaf _)
  | start => exact .some (.leaf _)

theorem addContext_spec (h : pd.WellFormed) {ctx : Context} (hctx : ctx.NoneFree) (ana : A) :
    ∃ pd', pd.addContext ctx ana = .ok (pd', reports (pd.info ctx.keys) ana) ∧
      pd'.WellFormed ∧ pd'.info = AddedEntries.add AnalysisDom.join pd.info (ctx.keys, ana) := by
  obtain ⟨_ | tree⟩ := pd
  · refine ⟨⟨some (makeLabeledTree ctx.getTokenList ana)⟩, rfl, ?_, ?_⟩
    · exact .some (ContextTree.WellFormed.makeLabeledTree hctx ana)
    · have hinfo (ks : ContextKey) := infoAt_makeLabeledTree hctx ana ks
      apply AddedEntries.eq_add
      · exact (hinfo ctx.keys).trans (if_pos rfl)
      · exact fun ks hks => (hinfo ks).trans (if_neg (Ne.symm hks))
  · obtain ⟨tree', hadd, hwell, hinfo⟩ := adds_of_wellFormed hctx (h tree rfl) ana
    refine ⟨⟨some tree'⟩, ?_, .some hwell, hinfo⟩
    simp only [addContext, hadd]
    rfl

/-- The contexts of a list are added one after the other. -/
def addContexts (pd : PartitioningDomain A) (l : List (Context × A)) :
    Except Fault (PartitioningDomain A) :=
  l.foldlM (fun pd e => (pd.addContext e.1 e.2).map Prod.fst) pd

theorem addContexts_spec (h : pd.WellFormed) {l : List (Context × A)}
    (hl : ∀ e ∈ l, e.1.NoneFree) : ∃ pd', pd.addContexts l = .ok pd' ∧ pd'.WellFormed ∧
      pd'.info = AddedEntries.addAll AnalysisDom.join pd.info
        (l.map fun e => (e.1.keys, e.2)) := by
  induction l generalizing pd with
  | nil => exact ⟨pd, rfl, h, rfl⟩
  | cons e l ih =>
    obtain ⟨pd₁, hadd, hwell, hinfo⟩ := addContext_spec h (hl e List.mem_cons_self) e.2
    obtain ⟨pd', hall, hwell', hinfo'⟩ := ih hwell fun e' he' =>
      hl e' (List.mem_cons_of_mem e he')
    refine ⟨pd', ?_, hwell', ?_⟩
    · rw [addContexts, List.foldlM_cons, hadd]
      exact hall
    · rw [hinfo', hinfo]
      rfl

/-- The join adds, key by key, what the other element records. -/
theorem join_spec (h : pd.WellFormed) (hother : other.WellFormed) :
    ∃ pd', pd.join other = .ok pd' ∧ pd'.WellFormed ∧
      pd'.info = fun ks => (pd.info ks).merge AnalysisDom.join (other.info ks) := by
  obtain ⟨_ | otherTree⟩ := other
  · refine ⟨pd, rfl, h, ?_⟩
    funext ks
    simp [info]
  · obtain ⟨_ | tree⟩ := pd
    · refine ⟨⟨some otherTree⟩, rfl, hother, ?_⟩
      funext ks
      simp [info]
    · have hlists := (hother otherTree rfl).lists
      obtain ⟨pd', hall, hwell, hinfo⟩ := addContexts_spec h fun e (he : e ∈ listed otherTree) =>
        noneFree_listed he
      refine ⟨pd', ?_, hwell, ?_⟩
      · rw [addContexts, listed, List.foldlM_map] at hall
        exact hall
      · funext ks
        rw [hinfo, keys_listed, hlists.addAll_apply]
        rfl

theorem equals_iff (h : pd.WellFormed) (hother : other.WellFormed) : pd.equals other = true ↔
    ∀ ks, Option.Rel (Alike lessequal) (pd.info ks) (other.info ks) := by
  obtain ⟨_ | tree⟩ := pd <;> obtain ⟨_ | otherTree⟩ := other
  · exact ⟨fun _ _ => .none, fun _ => rfl⟩
  · constructor
    · intro hfalse
      cases hfalse
    · intro hrel
      obtain ⟨ks, hks⟩ := (hother otherTree rfl).exists_infoAt
      exact absurd ((none_iff_of_rel (hrel ks)).mp rfl) hks
  · constructor
    · intro hfalse
      cases hfalse
    · intro hrel
      obtain ⟨ks, hks⟩ := (h tree rfl).exists_infoAt
      exact absurd ((none_iff_of_rel (hrel ks)).mpr rfl) hks
  · have hwell := h tree rfl
    have hwell' := hother otherTree rfl
    exact (LabeledTree.equals_iff hwell.ordered hwell'.ordered).trans
      (rel_infoAt_iff hwell hwell')

/-- The lookup of a context, exactly: it stops if longer contexts are recorded, but not the
context itself. -/
theorem findAnalysisInfoEarly_spec (h : pd.WellFormed) {ctx : Context} (hctx : ctx.NoneFree) :
    (∀ a, pd.info ctx.keys = some a → pd.findAnalysisInfoEarly ctx = .ok a) ∧
    (pd.info ctx.keys = none → pd.Extended ctx.keys → pd.findAnalysisInfoEarly ctx =
      .error (.assertion "Context empty but internal node without none child")) ∧
    (pd.info ctx.keys = none → ¬pd.Extended ctx.keys →
      pd.findAnalysisInfoEarly ctx = .ok (AnalysisDom.ofInit .bottom)) := by
  obtain ⟨_ | tree⟩ := pd
  · simp [info, findAnalysisInfoEarly, Extended]
  · apply walkDown_spec (P := fun found => found = .ok (AnalysisDom.ofInit .bottom)) rfl _ hctx
      (h tree rfl)
    intro token htoken
    have hne : token.getType ≠ .none := by
      have := hctx token htoken
      cases token <;> simp_all [PartitionToken.getType]
    rw [assertThat_of (by simpa using hne)]
    rfl

end PartitioningDomain

end Llvmta
