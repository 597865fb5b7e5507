import Mathlib.Tactic

/-!
# The last index with a property
-/

variable {p q : ℕ → Prop} {m n j k : ℕ}

/-- The last index before `n` with the property. -/
structure LastBefore (p : ℕ → Prop) (n k : ℕ) : Prop where
  lt : k < n
  holds : p k
  last : ∀ i, k < i → i < n → ¬ p i

theorem exists_lastBefore (h : ∃ k < n, p k) : ∃ k, LastBefore p n k := by
  classical
  induction n with
  | zero =>
    obtain ⟨k, hk, _⟩ := h
    exact absurd hk (Nat.not_lt_zero k)
  | succ n ih =>
    by_cases hp : p n
    · exact ⟨n, Nat.lt_succ_self n, hp, fun i hi hlt => absurd hlt (by omega)⟩
    · obtain ⟨k, hk, hpk⟩ := h
      have hne : k ≠ n := fun heq => hp (heq ▸ hpk)
      obtain ⟨j, hj⟩ := ih ⟨k, by omega, hpk⟩
      refine ⟨j, hj.lt.trans (Nat.lt_succ_self n), hj.holds, fun i hi hlt => ?_⟩
      rcases Nat.lt_succ_iff_lt_or_eq.mp hlt with hlt | rfl
      · exact hj.last i hi hlt
      · exact hp

namespace LastBefore

theorem congr (h : ∀ i < n, p i ↔ q i) : LastBefore p n k ↔ LastBefore q n k := by
  constructor
  · rintro ⟨hlt, hp, hlast⟩
    exact ⟨hlt, (h k hlt).mp hp, fun i hi hin hq => hlast i hi hin ((h i hin).mpr hq)⟩
  · rintro ⟨hlt, hq, hlast⟩
    exact ⟨hlt, (h k hlt).mpr hq, fun i hi hin hp => hlast i hi hin ((h i hin).mp hp)⟩

/-- The next index is the last one if it has the property. -/
theorem succ_of_holds (h : p n) : LastBefore p (n + 1) k ↔ k = n := by
  constructor
  · rintro ⟨hlt, _, hlast⟩
    by_contra hne
    exact hlast n (by omega) (Nat.lt_succ_self n) h
  · rintro rfl
    exact ⟨Nat.lt_succ_self k, h, fun i hi hlt => absurd hlt (by omega)⟩

theorem succ_of_not (h : ¬ p n) : LastBefore p (n + 1) k ↔ LastBefore p n k := by
  constructor
  · rintro ⟨hlt, hp, hlast⟩
    have hne : k ≠ n := fun heq => h (heq ▸ hp)
    exact ⟨by omega, hp, fun i hi hlt => hlast i hi (by omega)⟩
  · rintro ⟨hlt, hp, hlast⟩
    refine ⟨by omega, hp, fun i hi hin => ?_⟩
    rcases Nat.lt_succ_iff_lt_or_eq.mp hin with hin | rfl
    · exact hlast i hi hin
    · exact h

/-- Indices may be counted from a later one. -/
theorem add_iff (h : ∀ i, p (m + i) ↔ q i) : LastBefore p (m + n) (m + k) ↔ LastBefore q n k := by
  constructor
  · rintro ⟨hlt, hp, hlast⟩
    refine ⟨by omega, (h k).mp hp, fun i hi hin hq => ?_⟩
    exact hlast (m + i) (by omega) (by omega) ((h i).mpr hq)
  · rintro ⟨hlt, hq, hlast⟩
    refine ⟨by omega, (h k).mpr hq, fun i hi hin => ?_⟩
    obtain ⟨i, rfl⟩ := Nat.exists_eq_add_of_le (show m ≤ i by omega)
    exact fun hp => hlast i (by omega) (by omega) ((h i).mp hp)

end LastBefore
