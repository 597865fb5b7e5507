import Mathlib.Algebra.BigOperators.Group.Finset.Basic
import Mathlib.Tactic

/-!
# Covering a set by known elements and budgets

A finite set is covered when each of its elements is either known or charged to
an owner it belongs to, no owner being charged more often than its budget. Such
a set is at most as large as the known elements and the budgets together. An
owner whose budget reaches the number of its elements that are not known can be
charged with any of them, whatever has been charged to it before.
-/

namespace Budget

variable {τ ο : Type*} [DecidableEq τ] [DecidableEq ο]

/-- The elements outside `known` that are charged to an owner. -/
def charged (f : τ → ο) (elements known : Finset τ) (o : ο) : Finset τ :=
  (elements \ known).filter fun t => f t = o

/-- Each element outside `known` is charged to an owner it belongs to, within the budget. -/
def Covers (belongs : ο → Finset τ) (elements known : Finset τ) (budget : ο → ℕ) : Prop :=
  ∃ f : τ → ο, (∀ t ∈ elements \ known, t ∈ belongs (f t)) ∧
    ∀ o, (charged f elements known o).card ≤ budget o

variable {belongs : ο → Finset τ} {elements known : Finset τ} {budget : ο → ℕ}

theorem mem_charged {f : τ → ο} {o : ο} {t : τ} :
    t ∈ charged f elements known o ↔ t ∈ elements \ known ∧ f t = o :=
  Finset.mem_filter

theorem covers_empty [Inhabited ο] (known : Finset τ) (budget : ο → ℕ) :
    Covers belongs ∅ known budget := by
  refine ⟨fun _ => default, by simp, fun o => ?_⟩
  simp [charged]

/-- A cover stays one when fewer elements are left to charge and no budget shrinks. -/
theorem Covers.mono (h : Covers belongs elements known budget) {elements' known' : Finset τ}
    {budget' : ο → ℕ} (hrest : elements' \ known' ⊆ elements \ known)
    (hbudget : ∀ o, budget o ≤ budget' o) : Covers belongs elements' known' budget' := by
  obtain ⟨f, hf, hcard⟩ := h
  refine ⟨f, fun t ht => hf t (hrest ht), fun o => ?_⟩
  calc (charged f elements' known' o).card
      ≤ (charged f elements known o).card := Finset.card_le_card (Finset.filter_subset_filter _ hrest)
    _ ≤ budget o := hcard o
    _ ≤ budget' o := hbudget o

/-- The elements charged to an owner and its known elements are all its own. -/
theorem card_charged_le {f : τ → ο} (hf : ∀ t ∈ elements \ known, t ∈ belongs (f t)) (o : ο) :
    (charged f elements known o).card + (belongs o ∩ known).card ≤ (belongs o).card := by
  have hdisjoint : Disjoint (charged f elements known o) (belongs o ∩ known) := by
    rw [Finset.disjoint_left]
    intro t ht hknown
    exact (Finset.mem_sdiff.mp (mem_charged.mp ht).1).2 (Finset.mem_inter.mp hknown).2
  rw [← Finset.card_union_of_disjoint hdisjoint]
  apply Finset.card_le_card
  intro t ht
  rcases Finset.mem_union.mp ht with ht | ht
  · obtain ⟨hrest, rfl⟩ := mem_charged.mp ht
    exact hf t hrest
  · exact (Finset.mem_inter.mp ht).1

/-- A budget may be cut down to the number of the owner's elements that are not known. -/
theorem Covers.cap (h : Covers belongs elements known budget) {budget' : ο → ℕ}
    (hbudget : ∀ o, budget o ≤ budget' o ∨
      (belongs o).card ≤ budget' o + (belongs o ∩ known).card) :
    Covers belongs elements known budget' := by
  obtain ⟨f, hf, hcard⟩ := h
  refine ⟨f, hf, fun o => ?_⟩
  rcases hbudget o with hle | hle
  · exact (hcard o).trans hle
  · have := card_charged_le hf o
    omega

theorem charged_insert {f : τ → ο} {t : τ} {o : ο} (hnew : t ∉ elements) (ht : t ∉ known) (p : ο) :
    charged (Function.update f t o) (insert t elements) known p =
      if p = o then insert t (charged f elements known p) else charged f elements known p := by
  have hother {u : τ} (hu : u ∈ elements) : Function.update f t o u = f u := by
    apply Function.update_of_ne
    rintro rfl
    exact hnew hu
  ext u
  by_cases hut : u = t
  · subst u
    split_ifs with hp <;> simp [charged, ht, hnew, hp, eq_comm]
  · split_ifs with hp <;> simp [charged, hut]

/-- A new element is charged to an owner, whose budget grows by one or is exhausted. -/
theorem Covers.charge (h : Covers belongs elements known budget) {t : τ} {o : ο}
    (ht : t ∈ belongs o) {budget' : ο → ℕ} (hbudget : ∀ p, budget p ≤ budget' p)
    (ho : budget o + 1 ≤ budget' o ∨ (belongs o).card ≤ budget' o + (belongs o ∩ known).card) :
    Covers belongs (insert t elements) known budget' := by
  by_cases hcovered : t ∈ elements ∨ t ∈ known
  · apply h.mono _ hbudget
    intro u hu
    obtain ⟨hu, hunknown⟩ := Finset.mem_sdiff.mp hu
    rw [Finset.mem_sdiff]
    refine ⟨?_, hunknown⟩
    rcases Finset.mem_insert.mp hu with rfl | hu
    · exact hcovered.resolve_right hunknown
    · exact hu
  · obtain ⟨hnew, hunknown⟩ := not_or.mp hcovered
    obtain ⟨f, hf, hcard⟩ := h
    have hbelongs : ∀ u ∈ insert t elements \ known, u ∈ belongs (Function.update f t o u) := by
      intro u hu
      obtain ⟨hu, huk⟩ := Finset.mem_sdiff.mp hu
      by_cases hut : u = t
      · subst u
        rwa [Function.update_self]
      · rw [Function.update_of_ne hut]
        exact hf u (Finset.mem_sdiff.mpr ⟨(Finset.mem_insert.mp hu).resolve_left hut, huk⟩)
    refine ⟨Function.update f t o, hbelongs, fun p => ?_⟩
    by_cases hp : p = o
    · subst p
      rcases ho with ho | ho
      · have hnotMem : t ∉ charged f elements known o := fun hmem =>
          hnew (Finset.mem_sdiff.mp (mem_charged.mp hmem).1).1
        rw [charged_insert hnew hunknown, if_pos rfl, Finset.card_insert_of_notMem hnotMem]
        have := hcard o
        omega
      · have := card_charged_le hbelongs o
        omega
    · rw [charged_insert hnew hunknown, if_neg hp]
      exact (hcard p).trans (hbudget p)

/-- A covered set is no larger than the known elements and a list of charges. -/
theorem Covers.card_le {charges : List ο}
    (h : Covers belongs elements known fun o => charges.count o) :
    elements.card ≤ known.card + charges.length := by
  obtain ⟨f, _, hcard⟩ := h
  have hmaps : ∀ t ∈ elements \ known, f t ∈ charges.toFinset := by
    intro t ht
    have hpos : 0 < (charged f elements known (f t)).card :=
      Finset.card_pos.mpr ⟨t, mem_charged.mpr ⟨ht, rfl⟩⟩
    rw [List.mem_toFinset, ← List.count_pos_iff]
    exact hpos.trans_le (hcard (f t))
  have hrest : (elements \ known).card ≤ charges.length := by
    calc (elements \ known).card
        = ∑ o ∈ charges.toFinset, (charged f elements known o).card :=
          Finset.card_eq_sum_card_fiberwise hmaps
      _ ≤ ∑ o ∈ charges.toFinset, charges.count o := Finset.sum_le_sum fun o _ => hcard o
      _ = charges.length := List.sum_toFinset_count_eq_length charges
  have hsplit := Finset.card_sdiff_add_card elements known
  have hunion : elements.card ≤ (elements ∪ known).card :=
    Finset.card_le_card Finset.subset_union_left
  omega

end Budget
