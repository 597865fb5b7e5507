import Mathlib.Algebra.Order.Floor.Semiring
import Mathlib.Tactic

/-!
# Walking over lines with a stride

A range is walked from its first number in strides of one power of two, and is divided
into lines of another. The walk stops in every line of the range if and only if the
strides are not longer than the lines and the last stop is in the last line.
-/

namespace StrideCover

variable {d l lo up : ℕ}

/-- The last stop before the end. -/
def lastStop (stride lo up : ℕ) : ℕ := lo + (up - 1 - lo) / stride * stride

/-- Every line of the range has a stop. -/
def Covers (stride line lo up : ℕ) : Prop :=
  ∀ a, lo ≤ a → a ≤ up → ∃ k, lo + k * stride < up ∧ (lo + k * stride) / line = a / line

/-- A stride over more than one line misses the second one. -/
theorem Covers.stride_le (h : Covers (2 ^ d) (2 ^ l) lo up) (hlo : lo ≤ up)
    (hspread : lo / 2 ^ d ≠ up / 2 ^ d) : 2 ^ d ≤ 2 ^ l := by
  by_contra hlt
  have hexp : l < d := (Nat.pow_lt_pow_iff_right (by decide)).mp (not_le.mp hlt)
  obtain ⟨e, rfl⟩ : ∃ e, d = l + 1 + e := ⟨d - (l + 1), by omega⟩
  have hstride : 2 ^ (l + 1 + e) = 2 ^ l * (2 * 2 ^ e) := by ring
  have hpos : 0 < 2 ^ l := Nat.two_pow_pos l
  have he : 0 < 2 ^ e := Nat.two_pow_pos e
  -- the start of the second line is not behind the end
  have hnext : (lo / 2 ^ l + 1) * 2 ^ l ≤ up := by
    rw [← Nat.le_div_iff_mul_le hpos]
    by_contra hle
    have hsame : lo / 2 ^ l = up / 2 ^ l := by
      have := Nat.div_le_div_right (c := 2 ^ l) hlo
      omega
    apply hspread
    rw [hstride, ← Nat.div_div_eq_div_mul lo, ← Nat.div_div_eq_div_mul up, hsame]
  have hstart : lo < (lo / 2 ^ l + 1) * 2 ^ l := by
    rw [Nat.mul_comm]
    exact Nat.lt_mul_div_succ lo hpos
  obtain ⟨k, _, hk⟩ := h _ hstart.le hnext
  rw [Nat.mul_div_cancel _ hpos, hstride] at hk
  have hlines : (lo + k * (2 ^ l * (2 * 2 ^ e))) / 2 ^ l = lo / 2 ^ l + k * (2 * 2 ^ e) := by
    rw [show k * (2 ^ l * (2 * 2 ^ e)) = k * (2 * 2 ^ e) * 2 ^ l by ring,
      Nat.add_mul_div_right _ _ hpos]
  rw [hlines] at hk
  rcases Nat.eq_zero_or_pos k with rfl | hkpos
  · omega
  · have : 2 ≤ k * (2 * 2 ^ e) := by nlinarith
    omega

theorem lastStop_lt (stride : ℕ) (h : lo < up) : lastStop stride lo up < up := by
  have := Nat.div_mul_le_self (up - 1 - lo) stride
  unfold lastStop
  omega

theorem le_lastStop {stride k : ℕ} (hpos : 0 < stride) (h : lo + k * stride < up) :
    lo + k * stride ≤ lastStop stride lo up := by
  have hk : k ≤ (up - 1 - lo) / stride := (Nat.le_div_iff_mul_le hpos).mpr (by omega)
  have := Nat.mul_le_mul_right stride hk
  unfold lastStop
  omega

theorem Covers.lastStop_eq (h : Covers (2 ^ d) (2 ^ l) lo up) (hlo : lo ≤ up) :
    lastStop (2 ^ d) lo up / 2 ^ l = up / 2 ^ l := by
  obtain ⟨k, hlt, hk⟩ := h up hlo le_rfl
  have hlast := Nat.div_le_div_right (c := 2 ^ l) (le_lastStop (Nat.two_pow_pos d) hlt)
  have hend := Nat.div_le_div_right (c := 2 ^ l)
    (lastStop_lt (2 ^ d) (Nat.lt_of_le_of_lt (Nat.le_add_right lo _) hlt)).le
  omega

/-- Short strides stop in every line up to that of the last stop. -/
theorem covers_of_lastStop {stride line : ℕ} (hpos : 0 < stride) (hstride : stride ≤ line)
    (hlt : lo < up) (hlast : lastStop stride lo up / line = up / line) :
    Covers stride line lo up := by
  intro a hlo hup
  have hline : 0 < line := hpos.trans_le hstride
  by_cases hfirst : a / line = lo / line
  · exact ⟨0, by omega, by rw [hfirst, Nat.zero_mul, Nat.add_zero]⟩
  by_cases hbehind : lastStop stride lo up < a
  · refine ⟨(up - 1 - lo) / stride, lastStop_lt stride hlt, ?_⟩
    have hle := Nat.div_le_div_right (c := line) hbehind.le
    have hle' := Nat.div_le_div_right (c := line) hup
    change lastStop stride lo up / line = a / line
    omega
  -- the first stop that is not before the start of the line
  have hstart : lo < a / line * line := by
    rw [← Nat.div_lt_iff_lt_mul hline]
    exact lt_of_le_of_ne (Nat.div_le_div_right hlo) (Ne.symm hfirst)
  have hstop : a / line * line ≤ lo + (up - 1 - lo) / stride * stride :=
    (Nat.div_mul_le_self a line).trans (not_lt.mp hbehind)
  have hexists : ∃ k, a / line * line ≤ lo + k * stride := ⟨_, hstop⟩
  classical
  obtain ⟨k, hk⟩ : ∃ k, k = Nat.find hexists := ⟨_, rfl⟩
  have hfound : a / line * line ≤ lo + k * stride := hk ▸ Nat.find_spec hexists
  have hle : k ≤ (up - 1 - lo) / stride := hk ▸ Nat.find_min' hexists hstop
  have hbefore : lo + k * stride < a / line * line + stride := by
    cases k with
    | zero => omega
    | succ k =>
      have hmin : ¬a / line * line ≤ lo + k * stride :=
        Nat.find_min hexists (by omega)
      rw [Nat.succ_mul]
      omega
  refine ⟨k, ?_, ?_⟩
  · have := Nat.mul_le_mul_right stride hle
    exact (Nat.add_le_add_left this lo).trans_lt (lastStop_lt stride hlt)
  · apply Nat.div_eq_of_lt_le
    · exact hfound
    · rw [Nat.add_one_mul]
      omega

/-- When the walk stops in every line. -/
theorem covers_iff (hlo : lo ≤ up) (hspread : lo / 2 ^ d ≠ up / 2 ^ d) :
    Covers (2 ^ d) (2 ^ l) lo up ↔
      2 ^ d ≤ 2 ^ l ∧ lastStop (2 ^ d) lo up / 2 ^ l = up / 2 ^ l := by
  have hlt : lo < up := lt_of_le_of_ne hlo fun heq => hspread (heq ▸ rfl)
  constructor
  · intro h
    exact ⟨h.stride_le hlo hspread, h.lastStop_eq hlo⟩
  · rintro ⟨hstride, hlast⟩
    exact covers_of_lastStop (Nat.two_pow_pos d) hstride hlt hlast

end StrideCover
