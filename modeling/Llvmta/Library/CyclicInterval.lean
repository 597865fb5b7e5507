import Mathlib.Data.Nat.ModEq
import Mathlib.Tactic

/-!
# Intervals of residues

An interval of numbers, reduced modulo `N`, is an interval of residues that may
wrap around at `N`. It is determined by the residues of its ends exactly when it
has at most `N` elements or its length is a multiple of `N`.
-/

namespace Cyclic

/-- `i` lies on the way from the residue `l` up to the residue `u`. -/
def Between (N l u i : ℕ) : Prop := if l ≤ u then l ≤ i ∧ i ≤ u else l ≤ i ∧ i < N ∨ i ≤ u

instance (N l u i : ℕ) : Decidable (Between N l u i) :=
  inferInstanceAs (Decidable (if l ≤ u then l ≤ i ∧ i ≤ u else l ≤ i ∧ i < N ∨ i ≤ u))

theorem between_of_le {N l u i : ℕ} (h : l ≤ u) : Between N l u i ↔ l ≤ i ∧ i ≤ u := by
  rw [Between, if_pos h]

theorem between_of_lt {N l u i : ℕ} (h : u < l) : Between N l u i ↔ l ≤ i ∧ i < N ∨ i ≤ u := by
  rw [Between, if_neg (Nat.not_le.mpr h)]

/-- The residues of the numbers from `a` to `b`. -/
def Reached (N a b i : ℕ) : Prop := ∃ n, a ≤ n ∧ n ≤ b ∧ n % N = i

variable {N a b i : ℕ}

theorem add_mod_eq {r s : ℕ} (hr : r < N) (hs : s < N) :
    (r + s) % N = if r + s < N then r + s else r + s - N := by
  split_ifs with h
  · exact Nat.mod_eq_of_lt h
  · rw [Nat.mod_eq_sub_mod (Nat.le_of_not_lt h), Nat.mod_eq_of_lt (by omega)]

/-- The steps it takes from `a` to the next number with residue `i`. -/
theorem reached_iff (hi : i < N) (hab : a ≤ b) :
    Reached N a b i ↔ (if a % N ≤ i then i - a % N else i + N - a % N) ≤ b - a := by
  have hN : 0 < N := Nat.zero_lt_of_lt hi
  have hr := Nat.mod_lt a hN
  constructor
  · rintro ⟨n, han, hnb, hn⟩
    have hstep : n % N = (a % N + (n - a) % N) % N := by
      rw [← Nat.add_mod]
      congr 1
      omega
    rw [hn, add_mod_eq hr (Nat.mod_lt _ hN)] at hstep
    have hle := Nat.mod_le (n - a) N
    have hlt := Nat.mod_lt (n - a) hN
    split_ifs at hstep ⊢ <;> omega
  · intro h
    have hmod (d : ℕ) (hd : d < N) (hd' : (if a % N + d < N then a % N + d else a % N + d - N) = i)
        (hdb : d ≤ b - a) : Reached N a b i := by
      refine ⟨a + d, Nat.le_add_right _ _, by omega, ?_⟩
      rw [Nat.add_mod, Nat.mod_eq_of_lt hd, add_mod_eq hr hd]
      exact hd'
    split_ifs at h with hle
    · apply hmod (i - a % N) (by omega) _ h
      split_ifs <;> omega
    · apply hmod (i + N - a % N) (by omega) _ h
      split_ifs <;> omega

/-- An interval of at least `N` numbers reaches every residue. -/
theorem reached_of_long (hi : i < N) (hab : a ≤ b) (h : N ≤ b - a + 1) : Reached N a b i := by
  apply (reached_iff hi hab).mpr
  have hr := Nat.mod_lt a (Nat.zero_lt_of_lt hi)
  split_ifs <;> omega

/-- A shorter interval misses the residue in front of its start. -/
theorem exists_not_reached (hab : a ≤ b) (h : b - a + 1 < N) : ∃ i < N, ¬ Reached N a b i := by
  have hr := Nat.mod_lt a (Nat.zero_lt_of_lt h)
  by_cases h0 : a % N = 0
  · refine ⟨N - 1, by omega, fun hreached => ?_⟩
    have hle := (reached_iff (by omega) hab).mp hreached
    rw [h0, if_pos (Nat.zero_le _)] at hle
    omega
  · refine ⟨a % N - 1, by omega, fun hreached => ?_⟩
    have hle := (reached_iff (by omega) hab).mp hreached
    rw [if_neg (by omega)] at hle
    omega

/-- The residue of the upper end, from that of the lower end and the distance. -/
theorem mod_upper (hN : 0 < N) (hab : a ≤ b) :
    b % N = if a % N + (b - a) % N < N then a % N + (b - a) % N
      else a % N + (b - a) % N - N := by
  rw [← add_mod_eq (Nat.mod_lt _ hN) (Nat.mod_lt _ hN), ← Nat.add_mod, Nat.add_sub_cancel' hab]

theorem dvd_add_one_iff (hN : 0 < N) {k : ℕ} : N ∣ k + 1 ↔ k % N + 1 = N := by
  have hlt := Nat.mod_lt k hN
  have hsplit := Nat.div_add_mod k N
  constructor
  · intro h
    have hdvd : N ∣ k % N + 1 := by
      have hk : k + 1 = N * (k / N) + (k % N + 1) := by omega
      rw [hk] at h
      exact (Nat.dvd_add_right (Nat.dvd_mul_right _ _)).mp h
    have := Nat.le_of_dvd (Nat.succ_pos _) hdvd
    omega
  · intro h
    have hk : k + 1 = N * (k / N) + N := by omega
    rw [hk]
    exact Nat.dvd_add (Nat.dvd_mul_right _ _) (dvd_refl N)

/-- When the residues of the ends determine the residues reached. -/
theorem reached_iff_between (hN : 0 < N) (hab : a ≤ b) :
    (∀ i < N, Reached N a b i ↔ Between N (a % N) (b % N) i) ↔ b - a < N ∨ N ∣ b - a + 1 := by
  have hr := Nat.mod_lt a hN
  have hs := Nat.mod_lt (b - a) hN
  have hu := mod_upper hN hab
  rw [dvd_add_one_iff hN]
  constructor
  · intro h
    by_contra hlong
    push Not at hlong
    obtain ⟨hk, hne⟩ := hlong
    -- all residues are reached, but the one behind the upper end is not in between
    have hall (i : ℕ) (hi : i < N) : Between N (a % N) (b % N) i :=
      (h i hi).mp (reached_of_long hi hab (by omega))
    have h0 := hall 0 hN
    have hlast := hall (N - 1) (by omega)
    have hnext := hall (if b % N + 1 < N then b % N + 1 else 0) (by split_ifs <;> omega)
    unfold Between at h0 hlast hnext
    split_ifs at * <;> omega
  · rintro (hk | hdvd) i hi
    · rw [reached_iff hi hab]
      rw [Nat.mod_eq_of_lt hk] at hu
      unfold Between
      split_ifs at * <;> omega
    · have hreached : Reached N a b i := by
        apply reached_of_long hi hab
        have := Nat.mod_le (b - a) N
        omega
      refine ⟨fun _ => ?_, fun _ => hreached⟩
      unfold Between
      split_ifs at * <;> omega

/-- When the residues reached lie between that of the lower end and that of a number `m`
of the interval, without wrapping around. -/
theorem reached_subset_iff {m : ℕ} (hN : 0 < N) (ham : a ≤ m) (hmb : m ≤ b) :
    (∀ i < N, Reached N a b i → i = a % N ∨ a % N ≤ i ∧ i ≤ m % N) ↔
      a % N + (m - a) % N < N ∧ (b - a = (m - a) % N ∨ (m - a) % N + 1 = N) := by
  have hab := ham.trans hmb
  have hr := Nat.mod_lt a hN
  have hs := Nat.mod_lt (m - a) hN
  have hle := Nat.mod_le (m - a) N
  have hm := mod_upper hN ham
  constructor
  · intro h
    by_cases hlong : N ≤ b - a + 1
    · -- every residue is reached
      have hall (i : ℕ) (hi : i < N) := h i hi (reached_of_long hi hab hlong)
      have h0 := hall 0 hN
      have hlast := hall (N - 1) (by omega)
      split_ifs at hm <;> omega
    · have hb := mod_upper hN hab
      have hmod : (b - a) % N = b - a := Nat.mod_eq_of_lt (by omega)
      have hmod' : (m - a) % N = m - a := Nat.mod_eq_of_lt (by omega)
      have hend := h (b % N) (Nat.mod_lt b hN) ⟨b, hab, le_rfl, rfl⟩
      rw [hmod] at hb
      rw [hmod'] at hm ⊢
      split_ifs at hb hm <;> omega
  · rintro ⟨hlt, hlen⟩ i hi hreached
    rw [if_pos hlt] at hm
    rw [reached_iff hi hab] at hreached
    right
    rcases hlen with hlen | hlen <;> split_ifs at hreached <;> omega

end Cyclic
