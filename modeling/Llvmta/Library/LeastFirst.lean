import Mathlib.Data.Finset.Max
import Mathlib.Logic.Relation
import Mathlib.Tactic

/-!
# Worklists of which the least element is taken first

A finite set of pending numbers: each round takes the least one and adds its
images under a fixed relation. A round is a `Step`. Whether such rounds go on
forever is decided by what is at most as large as the element taken: larger
elements wait until the smaller ones are done.
-/

namespace LeastFirst

open Relation

/-- One round: `p`, the least element, is replaced by its images. -/
structure Step (R : ℕ → ℕ → Prop) (W W' : Finset ℕ) (p : ℕ) : Prop where
  mem : p ∈ W
  least : ∀ v ∈ W, p ≤ v
  next : ∀ v, v ∈ W' ↔ v ∈ W ∧ v ≠ p ∨ R p v

/-- The relation to elements that are at most `t`. -/
def Upto (R : ℕ → ℕ → Prop) (t u v : ℕ) : Prop := R u v ∧ v ≤ t

/-- What is pending up to `t` is reached from `t`, and `t` is reached from some of it. -/
structure Caught (R : ℕ → ℕ → Prop) (t : ℕ) (W : Finset ℕ) : Prop where
  reached : ∀ v ∈ W, v ≤ t → ReflTransGen (Upto R t) t v
  pending : ∃ w ∈ W, w ≤ t ∧ ReflTransGen (Upto R t) w t

variable {R : ℕ → ℕ → Prop} {W W' : Finset ℕ} {p t : ℕ}

theorem Step.caught_self (h : Step R W W' p) : Caught R p W where
  reached v hv hle := by
    have : v = p := Nat.le_antisymm hle (h.least v hv)
    exact this ▸ ReflTransGen.refl
  pending := ⟨p, h.mem, le_rfl, ReflTransGen.refl⟩

/-- The least pending element is reached from `t`. -/
theorem Caught.reached_least (hc : Caught R t W) (hp : p ∈ W) (hleast : ∀ v ∈ W, p ≤ v) :
    ReflTransGen (Upto R t) t p := by
  obtain ⟨w, hw, hle, _⟩ := hc.pending
  exact hc.reached p hp ((hleast w hw).trans hle)

/-- New elements are reached as well. -/
theorem Caught.reached_step (hc : Caught R t W) (h : Step R W W' p) {v : ℕ} (hv : v ∈ W')
    (hle : v ≤ t) : ReflTransGen (Upto R t) t v := by
  rcases (h.next v).mp hv with ⟨hW, _⟩ | hR
  · exact hc.reached v hW hle
  · exact (hc.reached_least h.mem h.least).tail ⟨hR, hle⟩

/-- On a cycle, a round leaves something to do. -/
theorem Caught.step (hcycle : TransGen (Upto R t) t t) (hc : Caught R t W) (h : Step R W W' p) :
    Caught R t W' := by
  refine ⟨fun v hv hle => hc.reached_step h hv hle, ?_⟩
  obtain ⟨w, hw, hle, hwt⟩ := hc.pending
  by_cases hp : w = p
  · subst w
    have hcycle' : TransGen (Upto R t) p t := by
      rcases hwt.cases_head with rfl | ⟨v, hpv, hvt⟩
      · exact hcycle
      · exact TransGen.head' hpv hvt
    obtain ⟨v, hpv, hvt⟩ := TransGen.head'_iff.mp hcycle'
    exact ⟨v, (h.next v).mpr (Or.inr hpv.1), hpv.2, hvt⟩
  · exact ⟨w, (h.next w).mpr (Or.inl ⟨hw, hp⟩), hle, hwt⟩

/-- The greatest number that is taken again and again. -/
theorem exists_recurrent {p : ℕ → ℕ} {B : ℕ} (hB : ∀ k, p k ≤ B) :
    ∃ t T, (∀ k, T ≤ k → p k ≤ t) ∧ ∀ k, ∃ k', k ≤ k' ∧ p k' = t := by
  classical
  have hex : ∃ t T, ∀ k, T ≤ k → p k ≤ t := ⟨B, 0, fun k _ => hB k⟩
  obtain ⟨T, hT⟩ := Nat.find_spec hex
  refine ⟨Nat.find hex, T, hT, fun k => ?_⟩
  by_contra hnone
  push Not at hnone
  have hlt : ∀ k', max T k ≤ k' → p k' < Nat.find hex := fun k' hk' =>
    lt_of_le_of_ne (hT k' ((le_max_left T k).trans hk')) (hnone k' ((le_max_right T k).trans hk'))
  have hpos : 0 < Nat.find hex := (Nat.zero_le _).trans_lt (hlt _ le_rfl)
  exact Nat.find_min hex (Nat.sub_one_lt hpos.ne')
    ⟨max T k, fun k' hk' => Nat.le_sub_one_of_lt (hlt k' hk')⟩

section Infinite

variable {W : ℕ → Finset ℕ} {p : ℕ → ℕ} (hstep : ∀ k, Step R (W k) (W (k + 1)) (p k))

include hstep

/-- A pending element is taken before a larger one is. -/
theorem taken_before {v a b : ℕ} (hab : a ≤ b) (hv : v ∈ W a) (hle : v ≤ p b) :
    ∃ k, a ≤ k ∧ p k = v := by
  by_contra hnone
  push Not at hnone
  have hstay : ∀ d, v ∈ W (a + d) := by
    intro d
    induction d with
    | zero => exact hv
    | succ d ih =>
      have hne : p (a + d) ≠ v := hnone (a + d) (Nat.le_add_right a d)
      exact ((hstep (a + d)).next v).mpr (Or.inl ⟨ih, hne.symm⟩)
  have hmem : v ∈ W b := by
    have := hstay (b - a)
    rwa [Nat.add_sub_cancel' hab] at this
  exact hnone b hab (Nat.le_antisymm ((hstep b).least v hmem) hle)

variable {k₀ : ℕ} (hk₀ : p k₀ = t)
  (hle : ∀ k, k₀ ≤ k → p k ≤ t)

include hk₀

include hle in
theorem reached_after {k : ℕ} (hk : k₀ ≤ k) :
    ∀ v ∈ W k, v ≤ t → ReflTransGen (Upto R t) t v := by
  induction hk with
  | refl => exact hk₀ ▸ (hstep k₀).caught_self.reached
  | @step k hk ih =>
    intro v hv hvt
    rcases ((hstep k).next v).mp hv with ⟨hW, _⟩ | hR
    · exact ih v hW hvt
    · exact (ih (p k) (hstep k).mem (hle k hk)).tail ⟨hR, hvt⟩

/-- What is reached from `t` is taken, if `t` is taken again and again. -/
theorem taken_after (hrec : ∀ k, ∃ k', k ≤ k' ∧ p k' = t) {v : ℕ}
    (hv : ReflTransGen (Upto R t) t v) : ∃ k, k₀ ≤ k ∧ p k = v := by
  induction hv with
  | refl => exact ⟨k₀, le_rfl, hk₀⟩
  | @tail u v _ huv ih =>
    obtain ⟨k, hk, hpk⟩ := ih
    have hmem : v ∈ W (k + 1) := ((hstep k).next v).mpr (Or.inr (hpk ▸ huv.1))
    obtain ⟨k', hk', hpk'⟩ := hrec (k + 1)
    obtain ⟨j, hj, hpj⟩ := taken_before hstep hk' hmem (hpk' ▸ huv.2)
    exact ⟨j, by omega, hpj⟩

include hle in
/-- If `t` is pending again, it was reached from itself. -/
theorem cycle_of_mem {k : ℕ} (hk : k₀ < k) (ht : t ∈ W k) : TransGen (Upto R t) t t := by
  induction hk with
  | refl =>
    rcases ((hstep k₀).next t).mp ht with ⟨_, hne⟩ | hR
    · exact absurd hk₀.symm hne
    · exact TransGen.single ⟨hk₀ ▸ hR, le_rfl⟩
  | @step k hk ih =>
    have hk : k₀ ≤ k := Nat.le_of_succ_le hk
    rcases ((hstep k).next t).mp ht with ⟨hW, _⟩ | hR
    · exact ih hW
    · have hreach := reached_after hstep hk₀ hle hk (p k) (hstep k).mem (hle k hk)
      exact TransGen.tail' hreach ⟨hR, le_rfl⟩

end Infinite

/-- Rounds that go on forever return to the greatest element that is taken again
and again, and take everything they reach from it. -/
theorem exists_cycle {W : ℕ → Finset ℕ} {p : ℕ → ℕ} {B : ℕ}
    (hstep : ∀ k, Step R (W k) (W (k + 1)) (p k)) (hB : ∀ k, p k ≤ B) :
    ∃ k₀, TransGen (Upto R (p k₀)) (p k₀) (p k₀) ∧
      ∀ v, ReflTransGen (Upto R (p k₀)) (p k₀) v → ∃ k, k₀ ≤ k ∧ p k = v := by
  obtain ⟨t, T, hle, hrec⟩ := exists_recurrent hB
  obtain ⟨k₀, hT, rfl⟩ := hrec T
  have hle' : ∀ k, k₀ ≤ k → p k ≤ p k₀ := fun k hk => hle k (hT.trans hk)
  obtain ⟨k₁, hk₁, hp₁⟩ := hrec (k₀ + 1)
  refine ⟨k₀, ?_, fun v hv => taken_after hstep rfl hrec hv⟩
  exact cycle_of_mem hstep rfl hle' hk₁ (hp₁ ▸ (hstep k₁).mem)

end LeastFirst
