import Mathlib.Data.List.Basic
import Mathlib.Data.List.Count
import Mathlib.Tactic

/-!
# Updated lists

What a list contributes when one of its elements is replaced.
-/

namespace List

variable {α β : Type*}

theorem map_set_of_eq {f : α → β} {l : List α} {i : ℕ} {a a' : α} (h : l[i]? = some a)
    (heq : f a' = f a) : (l.set i a').map f = l.map f := by
  induction l generalizing i with
  | nil => rfl
  | cons b l ih =>
    cases i with
    | zero =>
      cases h
      rw [set_cons_zero, map_cons, map_cons, heq]
    | succ i => rw [set_cons_succ, map_cons, map_cons, ih h]

/-- What an element contributes is exchanged when it is replaced. -/
theorem count_flatMap_set [BEq β] (f : α → List β) (x : β) {l : List α} {i : ℕ} {a : α} (a' : α)
    (h : l[i]? = some a) : ((l.set i a').flatMap f).count x + (f a).count x =
      (l.flatMap f).count x + (f a').count x := by
  induction l generalizing i with
  | nil => cases h
  | cons b l ih =>
    cases i with
    | zero =>
      cases h
      simp only [set_cons_zero, flatMap_cons, count_append]
      omega
    | succ i =>
      have hi := ih (i := i) h
      simp only [set_cons_succ, flatMap_cons, count_append]
      omega

end List
