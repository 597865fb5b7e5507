import Mathlib.Algebra.BigOperators.Group.Finset.Basic
import Llvmta.Library.LruSet

/-!
# Conflicts of a line and bounds relative to groups of lines

A line of a least-recently-used set is at the position given by the number of
lines that are younger. `Behind` bounds these by a set of lines accessed since.
An age bound that does not grow with every access to a group of lines must leave
room for the lines of the group that are still to come: `Slack` says how much,
for a group that has been counted a number of times and may be counted up to its
limit.
-/

namespace Lru

variable {τ : Type*} [DecidableEq τ]

namespace CacheSet

variable {A : ℕ}

/-- The lines in front of `t`. -/
def younger (s : CacheSet τ A) (t : τ) : Finset τ := (s.lines.take (s.age t)).toFinset

theorem mem_younger {s : CacheSet τ A} {t u : τ} :
    u ∈ s.younger t ↔ u ∈ s ∧ s.age u < s.age t := by
  rw [younger, List.mem_toFinset, mem_take_iff_idxOf_lt]
  rfl

theorem card_younger (s : CacheSet τ A) (t : τ) : (s.younger t).card = s.age t := by
  rw [younger, List.toFinset_card_of_nodup (s.nodup.sublist (List.take_sublist _ _)),
    List.length_take, Nat.min_eq_left (s.age_le_length t)]

/-- `t` is held, and all lines in front of it are among `lines`. -/
def Behind (s : CacheSet τ A) (t : τ) (lines : Finset τ) : Prop := t ∈ s ∧ s.younger t ⊆ lines

theorem Behind.mono {s : CacheSet τ A} {t : τ} {D E : Finset τ} (h : s.Behind t D) (hDE : D ⊆ E) :
    s.Behind t E := ⟨h.1, h.2.trans hDE⟩

theorem Behind.within {s : CacheSet τ A} {t : τ} {D : Finset τ} (h : s.Behind t D) {a : ℕ}
    (ha : D.card ≤ a) : s.Within t a := by
  have hcard := Finset.card_le_card h.2
  rw [card_younger] at hcard
  exact ⟨h.1, hcard.trans ha⟩

theorem behind_access_self (s : CacheSet τ A) (t : τ) (hA : 0 < A) (D : Finset τ) :
    (s.access t).Behind t D := by
  refine ⟨mem_access_self s t hA, ?_⟩
  intro u hu
  have := (mem_younger.mp hu).2
  rw [age_access_self] at this
  exact absurd this (Nat.not_lt_zero _)

/-- An access does not reorder the other lines. -/
theorem age_lt_of_access {s : CacheSet τ A} {x t u : τ} (hu : u ≠ x) (ht : t ≠ x)
    (hus : u ∈ s.access x) (hts : t ∈ s.access x)
    (h : (s.access x).age u < (s.access x).age t) : s.age u < s.age t := by
  rw [age_access s hu hus, age_access s ht hts] at h
  by_contra hle
  have hdiff : s.age u ≠ s.age t := by
    intro he
    have htu := age_injective (mem_of_mem_access hu hus).1 he
    exact absurd h (by rw [htu]; exact lt_irrefl _)
  unfold shiftedAge at h
  split_ifs at h <;> omega

/-- A line with at most as many conflicts as there are ways survives an access. -/
theorem Behind.access {s : CacheSet τ A} {x t : τ} {D : Finset τ} (h : s.Behind t D)
    (hne : t ≠ x) (hcard : (insert x D).card < A) : (s.access x).Behind t (insert x D) := by
  have hmem : t ∈ s.access x := by
    rw [mem_access_iff s hne]
    refine ⟨h.1, ?_⟩
    unfold shiftedAge
    split_ifs with hlt
    · exact age_lt_ways h.1
    · have hnot : x ∉ s.younger t := fun hx => hlt (mem_younger.mp hx).2
      have hsub := Finset.card_le_card (Finset.insert_subset_insert x h.2)
      rw [Finset.card_insert_of_notMem hnot, card_younger] at hsub
      omega
  refine ⟨hmem, ?_⟩
  intro u hu
  obtain ⟨hus, hage⟩ := mem_younger.mp hu
  by_cases hux : u = x
  · subst u
    exact Finset.mem_insert_self x D
  · apply Finset.mem_insert_of_mem
    exact h.2 (mem_younger.mpr
      ⟨(mem_of_mem_access hux hus).1, age_lt_of_access hux hne hus hmem hage⟩)

/-- Of two lines in a set, one is in front of the other. -/
theorem mem_younger_or {s : CacheSet τ A} {t u : τ} (ht : t ∈ s) (hu : u ∈ s) (hne : u ≠ t) :
    u ∈ s.younger t ∨ insert t (s.younger t) ⊆ s.younger u := by
  rcases lt_trichotomy (s.age u) (s.age t) with hlt | heq | hgt
  · exact .inl (mem_younger.mpr ⟨hu, hlt⟩)
  · exact absurd (age_injective hu heq) hne
  · right
    intro x hx
    rcases Finset.mem_insert.mp hx with rfl | hx
    · exact mem_younger.mpr ⟨ht, hgt⟩
    · obtain ⟨hxs, hlt⟩ := mem_younger.mp hx
      exact mem_younger.mpr ⟨hxs, hlt.trans hgt⟩

theorem notMem_younger_self (s : CacheSet τ A) (t : τ) : t ∉ s.younger t := fun h =>
  lt_irrefl _ (mem_younger.mp h).2

end CacheSet

section Slack

variable {ο : Type*} {group : ο → Finset τ} {limit counted : ο → ℕ} {v : τ}
  {D : Finset τ} {a : ℕ}

/-- The conflicts `D` of a line `v` and all lines of any groups stay within the bound `a` and
the number of times these groups may still be counted. -/
def Slack (group : ο → Finset τ) (limit counted : ο → ℕ) (v : τ) (D : Finset τ) (a : ℕ) : Prop :=
  ∀ R : Finset ο, (D ∪ (R.biUnion group).erase v).card ≤ a + ∑ r ∈ R, (limit r - counted r)

theorem Slack.card_le (h : Slack group limit counted v D a) : D.card ≤ a := by
  simpa using h ∅

/-- As long as nothing is counted, the limits of the groups leave room for all their lines. -/
theorem slack_zero (hgroup : ∀ r, (group r).card ≤ limit r) (hD : D.card ≤ a) :
    Slack group limit (fun _ => 0) v D a := by
  intro R
  calc (D ∪ (R.biUnion group).erase v).card
      ≤ D.card + ((R.biUnion group).erase v).card := Finset.card_union_le _ _
    _ ≤ D.card + (R.biUnion group).card := Nat.add_le_add_left (Finset.card_erase_le) _
    _ ≤ a + ∑ r ∈ R, (limit r - 0) := by
        apply Nat.add_le_add hD
        exact Finset.card_biUnion_le.trans (Finset.sum_le_sum fun r _ => hgroup r)

/-- Slack only depends on how often a group may still be counted. -/
theorem Slack.mono (h : Slack group limit counted v D a) {counted' : ο → ℕ} {b : ℕ} (hab : a ≤ b)
    (hle : ∀ r, limit r - counted r ≤ limit r - counted' r) :
    Slack group limit counted' v D b := by
  intro R
  exact (h R).trans (Nat.add_le_add hab (Finset.sum_le_sum fun r _ => hle r))

/-- A larger bound makes up for groups that are counted more often. -/
theorem Slack.weaken [DecidableEq ο] (h : Slack group limit counted v D a) (extra : List ο)
    {counted' : ο → ℕ} {b : ℕ} (hb : a + extra.length ≤ b) (hcounted : ∀ r, counted' r ≤ counted r + extra.count r) :
    Slack group limit counted' v D b := by
  intro R
  have hextra : ∑ r ∈ R, extra.count r ≤ extra.length := by
    rw [← List.sum_toFinset_count_eq_length extra, ← Finset.sum_filter_add_sum_filter_not R
      (fun r => r ∈ extra)]
    have hzero : ∑ r ∈ R with r ∉ extra, extra.count r = 0 := by
      apply Finset.sum_eq_zero
      intro r hr
      exact List.count_eq_zero_of_not_mem (Finset.mem_filter.mp hr).2
    rw [hzero, Nat.add_zero]
    apply Finset.sum_le_sum_of_subset
    intro r hr
    exact List.mem_toFinset.mpr (Finset.mem_filter.mp hr).2
  have hsum : ∑ r ∈ R, (limit r - counted r) ≤
      ∑ r ∈ R, (limit r - counted' r) + ∑ r ∈ R, extra.count r := by
    rw [← Finset.sum_add_distrib]
    apply Finset.sum_le_sum
    intro r _
    have := hcounted r
    omega
  have := h R
  omega

theorem card_insert_union_le (u : τ) (D E : Finset τ) :
    (insert u D ∪ E).card ≤ (D ∪ E).card + 1 := by
  rw [Finset.insert_union]
  exact Finset.card_insert_le _ _

/-- Any access adds at most one conflict. -/
theorem Slack.succ (h : Slack group limit counted v D a) (u : τ) :
    Slack group limit counted v (insert u D) (a + 1) := by
  intro R
  have := h R
  have := card_insert_union_le u D ((R.biUnion group).erase v)
  omega

/-- Counting a group pays for an access to one of its lines. -/
theorem Slack.count [DecidableEq ο] (h : Slack group limit counted v D a) {r : ο} {u : τ}
    (hu : u ∈ group r) (huv : u ≠ v) {counted' : ο → ℕ}
    (hcounted : ∀ q, counted' q = counted q + if q = r then 1 else 0) :
    Slack group limit counted' v (insert u D) (a + 1) := by
  intro R
  have hR := h R
  by_cases hr : r ∈ R
  · have hmem : u ∈ (R.biUnion group).erase v :=
      Finset.mem_erase.mpr ⟨huv, Finset.mem_biUnion.mpr ⟨r, hr, hu⟩⟩
    rw [Finset.insert_union, Finset.insert_eq_of_mem (Finset.mem_union_right _ hmem)]
    have hrest : ∑ q ∈ R.erase r, (limit q - counted' q) = ∑ q ∈ R.erase r, (limit q - counted q) := by
      apply Finset.sum_congr rfl
      intro q hq
      rw [hcounted, if_neg (Finset.ne_of_mem_erase hq), Nat.add_zero]
    rw [← Finset.add_sum_erase R _ hr, hrest, hcounted, if_pos rfl]
    rw [← Finset.add_sum_erase R _ hr] at hR
    omega
  · have hsame : ∑ q ∈ R, (limit q - counted' q) = ∑ q ∈ R, (limit q - counted q) := by
      apply Finset.sum_congr rfl
      intro q hq
      rw [hcounted, if_neg (ne_of_mem_of_not_mem hq hr), Nat.add_zero]
    rw [hsame]
    have := card_insert_union_le u D ((R.biUnion group).erase v)
    omega

/-- A group counted up to its limit pays for any access to its lines. -/
theorem Slack.exhausted [DecidableEq ο] (h : Slack group limit counted v D a) {r : ο} {u : τ}
    (hu : u ∈ group r) (huv : u ≠ v) (hlimit : limit r ≤ counted r) :
    Slack group limit counted v (insert u D) a := by
  intro R
  have hsub : insert u D ∪ (R.biUnion group).erase v ⊆
      D ∪ ((insert r R).biUnion group).erase v := by
    rw [Finset.biUnion_insert, Finset.insert_union]
    apply Finset.insert_subset
    · exact Finset.mem_union_right _ (Finset.mem_erase.mpr ⟨huv, Finset.mem_union_left _ hu⟩)
    · exact Finset.union_subset_union_right (Finset.erase_subset_erase v Finset.subset_union_right)
  have hR := h (insert r R)
  have hsum : ∑ q ∈ insert r R, (limit q - counted q) = ∑ q ∈ R, (limit q - counted q) := by
    by_cases hr : r ∈ R
    · rw [Finset.insert_eq_of_mem hr]
    · rw [Finset.sum_insert hr, Nat.sub_eq_zero_of_le hlimit, Nat.zero_add]
  rw [hsum] at hR
  exact (Finset.card_le_card hsub).trans hR

/-- The bound of an older line `x` covers an access to it for a younger line `v`. -/
theorem Slack.swap {x : τ} {E : Finset τ} (h : Slack group limit counted x E a) (hx : x ∉ D)
    (hv : v ∉ D) (hsub : insert v D ⊆ E) : Slack group limit counted v (insert x D) a := by
  intro R
  by_cases hvx : v = x
  · subst v
    have hle := h R
    have := Finset.card_le_card (Finset.union_subset_union_left
      (t := (R.biUnion group).erase x) hsub)
    omega
  · have hcommon (y z : τ) (hy : y ∉ D) (hyz : y ≠ z) :
        (insert y D ∪ (R.biUnion group).erase z).card =
          (D ∪ ((R.biUnion group).erase z).erase y).card + 1 := by
      have hnot : y ∉ D ∪ ((R.biUnion group).erase z).erase y := by
        rw [Finset.mem_union, not_or]
        exact ⟨hy, Finset.notMem_erase y _⟩
      rw [← Finset.card_insert_of_notMem hnot, ← Finset.union_insert, Finset.insert_union,
        Finset.union_insert]
      congr 1
      ext z'
      simp only [Finset.mem_insert, Finset.mem_union, Finset.mem_erase]
      tauto
    have hle := h R
    have hmono := Finset.card_le_card
      (Finset.union_subset_union_left (t := (R.biUnion group).erase x) hsub)
    rw [hcommon x v hx (Ne.symm hvx), Finset.erase_right_comm]
    rw [hcommon v x hv hvx] at hmono
    omega

end Slack

end Lru
