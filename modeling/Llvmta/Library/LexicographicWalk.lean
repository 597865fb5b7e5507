import Mathlib.Data.List.Lex
import Mathlib.Data.Prod.Lex
import Mathlib.Tactic

/-!
# Comparisons at the first difference

Two sequences of equal length are walked together until a pair decides which of them is less.
If the pairs are compared by keys of a linear order, so are the sequences, in the
lexicographic order of their keys.
-/

namespace Lexicographic

variable {α β ε : Type*}

/-- The loop over both sequences. A pair that does not decide is skipped. -/
def walk (step : α → α → Option Bool) : List α → List α → Bool
  | x :: xs, y :: ys => (step x y).getD (walk step xs ys)
  | _, _ => false

/-- The same loop, with a comparison of pairs that may stop. -/
def walkM (step : α → α → Except ε (Option Bool)) : List α → List α → Except ε Bool
  | x :: xs, y :: ys => do
    match ← step x y with
    | some less => .ok less
    | none => walkM step xs ys
  | _, _ => .ok false

/-- What a pair of keys decides. -/
def compareKeys [LinearOrder β] (a b : β) : Option Bool :=
  if a = b then none else some (decide (a < b))

theorem walkM_eq {step : α → α → Except ε (Option Bool)} {step' : α → α → Option Bool}
    {xs ys : List α} (h : ∀ x ∈ xs, ∀ y ∈ ys, step x y = .ok (step' x y)) :
    walkM step xs ys = .ok (walk step' xs ys) := by
  induction xs generalizing ys with
  | nil => cases ys <;> rfl
  | cons x xs ih =>
    cases ys with
    | nil => rfl
    | cons y ys =>
      have hrest := ih fun x' hx' y' hy' =>
        h x' (List.mem_cons_of_mem x hx') y' (List.mem_cons_of_mem y hy')
      rw [walkM, walk, h x List.mem_cons_self y List.mem_cons_self]
      cases step' x y with
      | none => exact hrest
      | some less => rfl

theorem walk_eq [LinearOrder β] {step : α → α → Option Bool} {key key' : α → β}
    {xs ys : List α} (h : ∀ x ∈ xs, ∀ y ∈ ys, step x y = compareKeys (key x) (key' y))
    (hlength : xs.length = ys.length) :
    walk step xs ys = decide (xs.map key < ys.map key') := by
  induction xs generalizing ys with
  | nil =>
    cases ys with
    | nil => simp [walk]
    | cons y ys => cases hlength
  | cons x xs ih =>
    cases ys with
    | nil => cases hlength
    | cons y ys =>
      have hrest := ih (fun x' hx' y' hy' =>
        h x' (List.mem_cons_of_mem x hx') y' (List.mem_cons_of_mem y hy'))
        (Nat.succ_injective hlength)
      rw [walk, h x List.mem_cons_self y List.mem_cons_self, hrest]
      unfold compareKeys
      by_cases hxy : key x = key' y
      · simp [hxy]
      · simp [hxy, List.cons_lt_cons_iff]

/-- Sequences with the same keys are equal if the keys tell their elements apart. -/
theorem eq_of_map_eq {key key' : α → β} {xs ys : List α}
    (h : ∀ x ∈ xs, ∀ y ∈ ys, key x = key' y → x = y) (hmap : xs.map key = ys.map key') :
    xs = ys := by
  induction xs generalizing ys with
  | nil => exact (List.map_eq_nil_iff.mp hmap.symm).symm
  | cons x xs ih =>
    cases ys with
    | nil => cases hmap
    | cons y ys =>
      rw [List.map_cons, List.map_cons, List.cons.injEq] at hmap
      rw [h x List.mem_cons_self y List.mem_cons_self hmap.1, ih (fun x' hx' y' hy' =>
        h x' (List.mem_cons_of_mem x hx') y' (List.mem_cons_of_mem y hy')) hmap.2]

end Lexicographic
