import Llvmta.Library.CollectingRun
import Llvmta.Library.LruConflict

/-!
# Sets shared with others

Between the accesses of a run, others may access lines of a given set `F`. A run
that knows nothing of them describes its own set, and the shared set differs from
that: a line is held if its conflicts in the own set and the lines of `F` leave a
way for it, and a line outside `F` is in the shared set only if it is in the own one.
-/

namespace Lru

open Collecting

variable {τ : Type*} [DecidableEq τ]

namespace CacheSet

variable {A : ℕ}

theorem shiftedAge_eq_card {s : CacheSet τ A} {t u : τ} (hu : u ∈ s) :
    s.shiftedAge t u = (insert t (s.younger u)).card := by
  unfold shiftedAge
  split_ifs with hlt
  · have ht : t ∈ s := by
      rw [mem_iff_age_lt] at hu ⊢
      exact hlt.trans hu
    rw [Finset.insert_eq_of_mem (mem_younger.mpr ⟨ht, hlt⟩), card_younger]
  · rw [Finset.card_insert_of_notMem fun ht => hlt (mem_younger.mp ht).2, card_younger]

/-- An access puts its line in front of the others. -/
theorem younger_access {s : CacheSet τ A} {t u : τ} (hne : u ≠ t) (hu : u ∈ s.access t) :
    (s.access t).younger u = insert t (s.younger u) := by
  obtain ⟨hus, hways⟩ := (mem_access_iff s hne).mp hu
  have hage := age_access s hne hu
  ext v
  rw [Finset.mem_insert, mem_younger, mem_younger]
  by_cases hv : v = t
  · subst hv
    have hpos : (s.access v).age v < (s.access v).age u := by
      rw [age_access_self, hage]
      unfold shiftedAge
      split_ifs <;> omega
    have hA : 0 < A := (Nat.zero_le _).trans_lt (age_lt_ways hu)
    exact ⟨fun _ => .inl rfl, fun _ => ⟨mem_access_self s v hA, hpos⟩⟩
  · constructor
    · rintro ⟨hmem, hlt⟩
      exact .inr ⟨(mem_of_mem_access hv hmem).1, age_lt_of_access hv hne hmem hu hlt⟩
    · rintro (rfl | ⟨hvs, hlt⟩)
      · exact absurd rfl hv
      · have hshift : s.shiftedAge t v < s.shiftedAge t u := by
          have hdiff : s.age v ≠ s.age t := fun he => hv (age_injective hvs he)
          unfold shiftedAge
          split_ifs <;> omega
        have hmem : v ∈ s.access t := (mem_access_iff s hv).mpr ⟨hvs, hshift.trans hways⟩
        refine ⟨hmem, ?_⟩
        rw [age_access s hv hmem, hage]
        exact hshift

/-- The set after an access, or none. -/
def accessed (s : CacheSet τ A) : Option τ → CacheSet τ A
  | none => s
  | some t => s.access t

end CacheSet

variable {A : ℕ}

/-- Accesses of others to the lines of `F`. -/
def Foreign (F : Finset τ) : CacheSet τ A → CacheSet τ A → Prop :=
  Relation.ReflTransGen fun s s' => ∃ f ∈ F, s' = s.access f

/-- The own set `o` and the shared set `s` after own accesses to both and accesses of
others to the shared set. -/
inductive Interleaved (F : Finset τ) : CacheSet τ A → CacheSet τ A → Prop where
  | start (c : CacheSet τ A) : Interleaved F c c
  | own {o s : CacheSet τ A} (t : τ) (h : Interleaved F o s) :
      Interleaved F (o.access t) (s.access t)
  | foreign {o s : CacheSet τ A} (f : τ) (hf : f ∈ F) (h : Interleaved F o s) :
      Interleaved F o (s.access f)

namespace Interleaved

variable {F : Finset τ} {o s : CacheSet τ A}

theorem accessed (h : Interleaved F o s) (x : Option τ) :
    Interleaved F (o.accessed x) (s.accessed x) := by
  cases x with
  | none => exact h
  | some t => exact h.own t

theorem trans_foreign {s' : CacheSet τ A} (h : Interleaved F o s) (hs : Foreign F s s') :
    Interleaved F o s' := by
  induction hs with
  | refl => exact h
  | tail _ hstep ih =>
    obtain ⟨f, hf, rfl⟩ := hstep
    exact ih.foreign f hf

/-- A line is shared as long as its own conflicts and those of the others leave a way. -/
theorem behind (h : Interleaved F o s) {u : τ} (hu : u ∈ o)
    (hcard : o.age u + (F.erase u).card < A) : s.Behind u (o.younger u ∪ F.erase u) := by
  have hA : 0 < A := (Nat.zero_le _).trans_lt hcard
  induction h with
  | start c => exact ⟨hu, Finset.subset_union_left⟩
  | @own o s t h ih =>
    by_cases hut : u = t
    · subst hut
      exact CacheSet.behind_access_self s u hA _
    · obtain ⟨huo, hle⟩ := CacheSet.mem_of_mem_access hut hu
      have hyounger := CacheSet.younger_access hut hu
      have hcards := (Finset.card_union_le ((o.access t).younger u) (F.erase u)).trans_lt
        ((CacheSet.card_younger (o.access t) u).symm ▸ hcard)
      rw [hyounger, Finset.insert_union] at hcards ⊢
      exact (ih huo (by omega)).access hut hcards
  | @foreign o s f hf h ih =>
    by_cases huf : u = f
    · subst huf
      exact CacheSet.behind_access_self s u hA _
    · have hmem : f ∈ o.younger u ∪ F.erase u :=
        Finset.mem_union_right _ (Finset.mem_erase.mpr ⟨Ne.symm huf, hf⟩)
      have hcards := (Finset.card_union_le (o.younger u) (F.erase u)).trans_lt
        ((CacheSet.card_younger o u).symm ▸ hcard)
      rw [← Finset.insert_eq_of_mem hmem] at hcards ⊢
      exact (ih hu hcard).access huf hcards

/-- Others bring no line outside `F` into the shared set. -/
theorem younger_subset (h : Interleaved F o s) {u : τ} (huF : u ∉ F) (hu : u ∈ s) :
    u ∈ o ∧ o.younger u ⊆ s.younger u := by
  induction h with
  | start c => exact ⟨hu, Finset.Subset.refl _⟩
  | @own o s t h ih =>
    by_cases hut : u = t
    · subst hut
      have hA : 0 < A := (Nat.zero_le _).trans_lt (CacheSet.age_lt_ways hu)
      have hself := CacheSet.behind_access_self o u hA ((s.access u).younger u)
      exact hself
    · obtain ⟨hus, hways⟩ := (CacheSet.mem_access_iff s hut).mp hu
      obtain ⟨huo, hsub⟩ := ih hus
      have hsub := Finset.insert_subset_insert t hsub
      have huo' : u ∈ o.access t := by
        apply (CacheSet.mem_access_iff o hut).mpr ⟨huo, _⟩
        rw [CacheSet.shiftedAge_eq_card huo]
        rw [CacheSet.shiftedAge_eq_card hus] at hways
        exact (Finset.card_le_card hsub).trans_lt hways
      rw [CacheSet.younger_access hut hu, CacheSet.younger_access hut huo']
      exact ⟨huo', hsub⟩
  | @foreign o s f hf h ih =>
    have huf : u ≠ f := fun he => huF (he ▸ hf)
    obtain ⟨hus, _⟩ := (CacheSet.mem_access_iff s huf).mp hu
    obtain ⟨huo, hsub⟩ := ih hus
    rw [CacheSet.younger_access huf hu]
    exact ⟨huo, hsub.trans (Finset.subset_insert f _)⟩

end Interleaved

/-! ## Runs -/

section Runs

variable {ι Op σ ε : Type*}

/-- The operations of an analysis access at most one line each. -/
structure Accesses (S : Analysis ι Op σ (CacheSet τ A) ε) where
  lines : Op → Option τ → Prop
  concrete_iff : ∀ op c c', S.concrete op c c' ↔ ∃ x, lines op x ∧ c' = c.accessed x

/-- The same analysis on the own and the shared set. -/
def sharedAnalysis (S : Analysis ι Op σ (CacheSet τ A) ε) (accesses : Accesses S)
    (F : Finset τ) : Analysis ι Op σ (CacheSet τ A × CacheSet τ A) ε where
  start := S.start
  step := S.step
  join := S.join
  described i := {p | p.1 ∈ S.described i ∧ Foreign F p.1 p.2}
  concrete op p p' :=
    ∃ x, accesses.lines op x ∧ p'.1 = p.1.accessed x ∧ Foreign F (p.2.accessed x) p'.2

variable {S : Analysis ι Op σ (CacheSet τ A) ε} {accesses : Accesses S} {F : Finset τ}

theorem eval_sharedAnalysis (r : Run ι Op) : (sharedAnalysis S accesses F).eval r = S.eval r := by
  induction r with
  | start i => rfl
  | step r op ih => rw [Analysis.eval, Analysis.eval, ih]; rfl
  | join r₁ r₂ ih₁ ih₂ => rw [Analysis.eval, Analysis.eval, ih₁, ih₂]; rfl

theorem collect_sharedAnalysis (r : Run ι Op) :
    ∀ p ∈ (sharedAnalysis S accesses F).collect r,
      p.1 ∈ S.collect r ∧ Interleaved F p.1 p.2 := by
  induction r with
  | start i => exact fun p hp => ⟨hp.1, (Interleaved.start p.1).trans_foreign hp.2⟩
  | step r op ih =>
    rintro p' ⟨p, hp, x, hx, hown, hshared⟩
    obtain ⟨hmem, hinter⟩ := ih p hp
    refine ⟨⟨p.1, hmem, (accesses.concrete_iff op _ _).mpr ⟨x, hx, hown⟩⟩, ?_⟩
    rw [hown]
    exact (hinter.accessed x).trans_foreign hshared
  | join r₁ r₂ ih₁ ih₂ =>
    rintro p (hp | hp)
    · exact ⟨.inl (ih₁ p hp).1, (ih₁ p hp).2⟩
    · exact ⟨.inr (ih₂ p hp).1, (ih₂ p hp).2⟩

/-- The others may wait until the run has ended. -/
theorem mem_collect_sharedAnalysis (r : Run ι Op) :
    ∀ c ∈ S.collect r, ∀ s, Foreign F c s → (c, s) ∈ (sharedAnalysis S accesses F).collect r := by
  induction r with
  | start i => exact fun c hc s hs => ⟨hc, hs⟩
  | step r op ih =>
    rintro c' ⟨c, hc, hstep⟩ s hs
    obtain ⟨x, hx, rfl⟩ := (accesses.concrete_iff op _ _).mp hstep
    exact ⟨(c, c), ih c hc c .refl, x, hx, rfl, hs⟩
  | join r₁ r₂ ih₁ ih₂ =>
    rintro c (hc | hc) s hs
    · exact .inl (ih₁ c hc s hs)
    · exact .inr (ih₂ c hc s hs)

end Runs

end Lru
