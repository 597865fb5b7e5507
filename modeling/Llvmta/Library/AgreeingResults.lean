import Llvmta.Library.CheckedVector

/-!
# Runs with related results

Two computations agree if both have results that are related, or both stop with the same
error. Sequences of computations agree step by step.
-/

namespace Checked

universe u v w

/-- The results of both computations are related. -/
inductive Agree {ε : Type u} {α : Type v} {β : Type w} (R : α → β → Prop) :
    Except ε α → Except ε β → Prop
  | ok {a : α} {b : β} (h : R a b) : Agree R (.ok a) (.ok b)
  | error (e : ε) : Agree R (.error e) (.error e)

namespace Agree

variable {ε : Type u} {α α' : Type v} {β β' : Type w} {R : α → β → Prop} {Q : α' → β' → Prop}
  {x : Except ε α} {y : Except ε β}

theorem bind {f : α → Except ε α'} {g : β → Except ε β'} (h : Agree R x y)
    (hfg : ∀ a b, R a b → Agree Q (f a) (g b)) : Agree Q (x >>= f) (y >>= g) := by
  cases h with
  | ok h => exact hfg _ _ h
  | error e => exact .error e

theorem mono {R' : α → β → Prop} (h : Agree R x y) (hR : ∀ a b, R a b → R' a b) :
    Agree R' x y := by
  cases h with
  | ok h => exact .ok (hR _ _ h)
  | error e => exact .error e

theorem ok_left {a : α} (h : Agree R (.ok a) y) : ∃ b, y = .ok b ∧ R a b := by
  cases h with
  | ok h => exact ⟨_, rfl, h⟩

theorem refl (x : Except ε α) : Agree Eq x x := by
  cases x with
  | ok a => exact .ok rfl
  | error e => exact .error e

theorem of_eq {z : Except ε α} (h : x = z) : Agree Eq x z := h ▸ refl x

theorem eq {z : Except ε α} (h : Agree Eq x z) : x = z := by
  cases h with
  | ok h => rw [h]
  | error e => rfl

/-- A computation before both. -/
theorem bind_same {γ : Type v} {z : Except ε γ} {f : γ → Except ε α'} {g : γ → Except ε α}
    {Q : α' → α → Prop} (h : ∀ c, z = .ok c → Agree Q (f c) (g c)) :
    Agree Q (z >>= f) (z >>= g) := by
  cases z with
  | ok c => exact h c rfl
  | error e => exact .error e

end Agree

section Vectors

variable {α : Type v} {β : Type w} {R : α → β → Prop} {v : List α} {w : List β}

theorem agree_read (h : List.Forall₂ R v w) (i : ℕ) :
    Agree (fun a b => R a b ∧ i < v.length) (read v i) (read w i) := by
  by_cases hi : i < v.length
  · have hi' : i < w.length := h.length_eq ▸ hi
    rw [read_of_lt hi, read_of_lt hi']
    exact .ok ⟨(List.forall₂_iff_get.mp h).2 i hi hi', hi⟩
  · have hi' : ¬i < w.length := h.length_eq ▸ hi
    unfold read
    rw [List.getElem?_eq_none (Nat.le_of_not_lt hi), List.getElem?_eq_none (Nat.le_of_not_lt hi')]
    exact .error _

theorem forall₂_set (h : List.Forall₂ R v w) {a : α} {b : β} (hab : R a b) (i : ℕ) :
    List.Forall₂ R (v.set i a) (w.set i b) := by
  induction h generalizing i with
  | nil => exact .nil
  | cons h hrest ih =>
    cases i with
    | zero => exact .cons hab hrest
    | succ i => exact .cons h (ih i)

theorem forall₂_eraseIdx (h : List.Forall₂ R v w) (i : ℕ) :
    List.Forall₂ R (v.eraseIdx i) (w.eraseIdx i) := by
  induction h generalizing i with
  | nil => exact .nil
  | cons h hrest ih =>
    cases i with
    | zero => exact hrest
    | succ i => exact .cons h (ih i)

theorem agree_write (h : List.Forall₂ R v w) {a : α} {b : β} (hab : R a b) (i : ℕ) :
    Agree (fun v' w' => List.Forall₂ R v' w' ∧ v'.length = v.length) (write v i a)
      (write w i b) := by
  unfold write
  rw [← h.length_eq]
  split_ifs
  · exact .ok ⟨forall₂_set h hab i, List.length_set⟩
  · exact .error _

end Vectors

end Checked
