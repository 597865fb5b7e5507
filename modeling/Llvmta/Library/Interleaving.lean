import Mathlib.Data.List.Basic

/-!
# Interleavings

What has entered a queue from which the newest element may be taken away is an interleaving
of what has passed or will pass the queue and of what was taken away, each in order.
-/

/-- The elements of two lists in one list, each list in its order. -/
inductive Interleaving {α : Type*} : List α → List α → List α → Prop
  | nil : Interleaving [] [] []
  | keep {kept removed entered : List α} (a : α) (h : Interleaving kept removed entered) :
    Interleaving (kept ++ [a]) removed (entered ++ [a])
  | remove {kept removed entered : List α} (a : α) (h : Interleaving kept removed entered) :
    Interleaving kept (removed ++ [a]) (entered ++ [a])

namespace Interleaving

variable {α : Type*} {kept removed entered : List α}

theorem keep_toList (h : Interleaving kept removed entered) (o : Option α) :
    Interleaving (kept ++ o.toList) removed (entered ++ o.toList) := by
  cases o with
  | none => simpa using h
  | some a => exact h.keep a

theorem remove_toList (h : Interleaving kept removed entered) (o : Option α) :
    Interleaving kept (removed ++ o.toList) (entered ++ o.toList) := by
  cases o with
  | none => simpa using h
  | some a => exact h.remove a

theorem length_eq (h : Interleaving kept removed entered) :
    entered.length = kept.length + removed.length := by
  induction h with
  | nil => rfl
  | keep a _ ih =>
    simp only [List.length_append, ih]
    omega
  | remove a _ ih =>
    simp only [List.length_append, ih]
    omega

end Interleaving
