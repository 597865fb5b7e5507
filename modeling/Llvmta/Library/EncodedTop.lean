import Mathlib.Algebra.Order.Monoid.WithTop
import Mathlib.Algebra.Order.Ring.Int
import Mathlib.Tactic

/-!
# Infinity as a negative number

Numbers that may be infinite, stored in an integer: `-1` stands for infinity. The
order of the integers and that of the numbers agree where no infinity is involved.
-/

namespace EncodedTop

/-- The representation of a number that may be infinite. -/
def encode : WithTop ℕ → ℤ
  | none => -1
  | some n => n

/-- What an integer represents. -/
def decode (x : ℤ) : WithTop ℤ := if x = -1 then ⊤ else x

/-- A number that may be infinite as an integer that may be so. -/
def toInt (t : WithTop ℕ) : WithTop ℤ := t.map Nat.cast

@[simp] theorem encode_top : encode ⊤ = -1 := rfl

theorem encode_coe (n : ℕ) : encode (WithTop.some n) = n := rfl

@[simp] theorem toInt_top : toInt ⊤ = ⊤ := rfl

theorem toInt_coe (n : ℕ) : toInt (WithTop.some n) = WithTop.some (n : ℤ) := rfl

@[simp] theorem decode_neg_one : decode (-1) = ⊤ := if_pos rfl

theorem decode_of_ne {x : ℤ} (h : x ≠ -1) : decode x = x := if_neg h

theorem decode_eq_top_iff {x : ℤ} : decode x = ⊤ ↔ x = -1 := by
  unfold decode
  split_ifs with h
  · simp [h]
  · simp [h]

theorem encode_eq_neg_one_iff {t : WithTop ℕ} : encode t = -1 ↔ t = ⊤ := by
  cases t with
  | top => exact iff_of_true rfl rfl
  | coe n =>
    rw [encode_coe]
    exact iff_of_false (by omega) (WithTop.coe_ne_top)

theorem encode_nonneg {t : WithTop ℕ} (h : t ≠ ⊤) : 0 ≤ encode t := by
  cases t with
  | top => exact absurd rfl h
  | coe n => exact Int.natCast_nonneg n

theorem decode_encode (t : WithTop ℕ) : decode (encode t) = toInt t := by
  cases t with
  | top => rfl
  | coe n =>
    have hne : (n : ℤ) ≠ -1 := by omega
    rw [encode_coe, decode_of_ne hne, toInt_coe]

theorem toInt_eq_top_iff {t : WithTop ℕ} : toInt t = ⊤ ↔ t = ⊤ := by
  cases t with
  | top => exact iff_of_true rfl rfl
  | coe n => exact iff_of_false (WithTop.coe_ne_top) (WithTop.coe_ne_top)

theorem toInt_le_toInt {t t' : WithTop ℕ} : toInt t ≤ toInt t' ↔ t ≤ t' := by
  cases t' with
  | top => exact iff_of_true le_top le_top
  | coe n' =>
    cases t with
    | top =>
      rw [toInt_top, top_le_iff, top_le_iff, toInt_eq_top_iff]
    | coe n =>
      rw [toInt_coe, toInt_coe, WithTop.coe_le_coe, WithTop.coe_le_coe, Int.ofNat_le]

/-- Finite numbers are compared as they are. -/
theorem encode_le_encode {t t' : WithTop ℕ} (h : t ≤ t') (ht' : t' ≠ ⊤) :
    encode t ≤ encode t' := by
  cases t' with
  | top => exact absurd rfl ht'
  | coe n' =>
    cases t with
    | top => exact absurd (top_le_iff.mp h) ht'
    | coe n =>
      rw [encode_coe, encode_coe, Int.ofNat_le]
      exact WithTop.coe_le_coe.mp h

end EncodedTop
