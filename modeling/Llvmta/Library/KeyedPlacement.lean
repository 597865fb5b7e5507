import Llvmta.Library.CheckedFold
import Llvmta.Library.OrderedMap

/-!
# Placements under keys

A loop that enters each element of a list in a map, under its key and at a place that depends on
a cursor. A key that is there keeps its place, so elements with distinct keys are found at
their places, and others may not be.
-/

namespace OrderedMap

variable {κ β : Type*} [LinearOrder κ]

/-- An insertion that keeps the value of a key that is there. -/
def insertNew (m : OrderedMap κ β) (k : κ) (b : β) : OrderedMap κ β :=
  match m.find? k with
  | some _ => m
  | none => m.insert k b

theorem find?_insertNew (m : OrderedMap κ β) (k : κ) (b : β) (k' : κ) :
    (m.insertNew k b).find? k' = if k = k' then some ((m.find? k).getD b) else m.find? k' := by
  unfold insertNew
  split
  · next b' h =>
    split_ifs with hk
    · rw [← hk, h, Option.getD_some]
    · rfl
  · next h => rw [find?_insert, h, Option.getD_none]

theorem find?_insertNew_of_ne {k k' : κ} (h : k ≠ k') (m : OrderedMap κ β) (b : β) :
    (m.insertNew k b).find? k' = m.find? k' := by rw [find?_insertNew, if_neg h]

theorem find?_insertNew_of_none {m : OrderedMap κ β} {k : κ} (h : m.find? k = none) (b : β) :
    (m.insertNew k b).find? k = some b := by
  rw [find?_insertNew, if_pos rfl, h, Option.getD_none]

theorem find?_insertNew_of_some {m : OrderedMap κ β} {k k' : κ} {b' : β}
    (h : m.find? k' = some b') (b : β) : (m.insertNew k b).find? k' = some b' := by
  rw [find?_insertNew]
  split_ifs with hk
  · rw [hk, h, Option.getD_some]
  · exact h

end OrderedMap

namespace KeyedPlacement

variable {α β ρ : Type*} (place next : β → α → β) (f : α → β → ρ)

/-- What becomes of the elements at their places. -/
def placesFrom (cursor : β) : List α → List ρ
  | [] => []
  | a :: l => f a (place cursor a) :: placesFrom (next cursor a) l

variable {place next f}

theorem placesFrom_append (cursor : β) (l l' : List α) :
    placesFrom place next f cursor (l ++ l') =
      placesFrom place next f cursor l ++ placesFrom place next f (l.foldl next cursor) l' := by
  induction l generalizing cursor with
  | nil => rfl
  | cons a l ih => simp [placesFrom, ih]

theorem placesFrom_map {γ : Type*} (g : γ → α) (cursor : β) (l : List γ) :
    placesFrom place next f cursor (l.map g) =
      placesFrom (fun c a => place c (g a)) (fun c a => next c (g a)) (fun a => f (g a)) cursor
        l := by
  induction l generalizing cursor with
  | nil => rfl
  | cons a l ih => simp [placesFrom, ih]

/-- Each step of a loop enters an element at its place and moves the cursor. -/
def Enters {σ κ : Type*} [LinearOrder κ] (key : α → κ) (place next : β → α → β)
    (places : σ → OrderedMap κ β) (cursor : σ → β) (step : σ → α → Except Fault σ) : Prop :=
  ∀ s a s', step s a = .ok s' →
    places s' = (places s).insertNew (key a) (place (cursor s) a) ∧
      cursor s' = next (cursor s) a

variable {σ κ : Type*} [LinearOrder κ] {key : α → κ} {places : σ → OrderedMap κ β}
  {cursor : σ → β} {step : σ → α → Except Fault σ}
  (hstep : Enters key place next places cursor step)
  {l : List α} {s s' : σ} (h : l.foldlM step s = .ok s')

include hstep h

theorem keeps {k : κ} {b : β} (hk : (places s).find? k = some b) :
    (places s').find? k = some b := by
  induction l generalizing s with
  | nil =>
    cases h
    exact hk
  | cons a l ih =>
    rw [List.foldlM_cons] at h
    obtain ⟨s₁, h₁, h⟩ := Checked.bind_eq_ok.mp h
    apply ih h
    rw [(hstep s a s₁ h₁).1]
    exact OrderedMap.find?_insertNew_of_some hk _

theorem other {k : κ} (hk : k ∉ l.map key) : (places s').find? k = (places s).find? k := by
  induction l generalizing s with
  | nil =>
    cases h
    rfl
  | cons a l ih =>
    rw [List.foldlM_cons] at h
    obtain ⟨s₁, h₁, h⟩ := Checked.bind_eq_ok.mp h
    rw [List.map_cons, List.mem_cons, not_or] at hk
    rw [ih h hk.2, (hstep s a s₁ h₁).1]
    exact OrderedMap.find?_insertNew_of_ne (Ne.symm hk.1) _ _

theorem cursor_eq : cursor s' = l.foldl next (cursor s) := by
  induction l generalizing s with
  | nil =>
    cases h
    rfl
  | cons a l ih =>
    rw [List.foldlM_cons] at h
    obtain ⟨s₁, h₁, h⟩ := Checked.bind_eq_ok.mp h
    rw [ih h, (hstep s a s₁ h₁).2, List.foldl_cons]

/-- Elements with distinct keys are found at their places. -/
theorem filterMap_eq (hkeys : (l.map key).Nodup)
    (hfresh : ∀ a ∈ l, (places s).find? (key a) = none) :
    (l.filterMap fun a => ((places s').find? (key a)).map (f a)) =
      placesFrom place next f (cursor s) l := by
  induction l generalizing s with
  | nil => rfl
  | cons a l ih =>
    rw [List.foldlM_cons] at h
    obtain ⟨s₁, h₁, h⟩ := Checked.bind_eq_ok.mp h
    obtain ⟨hplaces, hcursor⟩ := hstep s a s₁ h₁
    obtain ⟨hnot, hkeys⟩ := List.nodup_cons.mp hkeys
    have hown : (places s').find? (key a) = some (place (cursor s) a) := by
      apply keeps hstep h
      rw [hplaces]
      exact OrderedMap.find?_insertNew_of_none (hfresh a List.mem_cons_self) _
    have hrest := ih h hkeys (by
      intro b hb
      have hne : key a ≠ key b := fun heq => hnot (heq ▸ List.mem_map_of_mem hb)
      rw [hplaces, OrderedMap.find?_insertNew_of_ne hne]
      exact hfresh b (List.mem_cons_of_mem a hb))
    simp only [List.filterMap_cons, hown, Option.map_some, hrest, hcursor, placesFrom]

/-- Elements with distinct keys are found, at places that have in common what all places have. -/
theorem find?_of_mem {P : α → β → Prop} (hP : ∀ c, ∀ a ∈ l, P a (place c a))
    (hkeys : (l.map key).Nodup) (hfresh : ∀ a ∈ l, (places s).find? (key a) = none) :
    ∀ a ∈ l, ∃ b, (places s').find? (key a) = some b ∧ P a b := by
  induction l generalizing s with
  | nil => exact fun _ ha => nomatch ha
  | cons a l ih =>
    rw [List.foldlM_cons] at h
    obtain ⟨s₁, h₁, hrun⟩ := Checked.bind_eq_ok.mp h
    obtain ⟨hplaces, -⟩ := hstep s a s₁ h₁
    obtain ⟨hnot, hkeys⟩ := List.nodup_cons.mp hkeys
    intro b hb
    rcases List.mem_cons.mp hb with rfl | hb
    · refine ⟨place (cursor s) b, ?_, hP _ b List.mem_cons_self⟩
      apply keeps hstep hrun
      rw [hplaces]
      exact OrderedMap.find?_insertNew_of_none (hfresh b List.mem_cons_self) _
    · refine ih hrun (fun c b hb => hP c b (List.mem_cons_of_mem a hb)) hkeys ?_ b hb
      intro b hb
      have hne : key a ≠ key b := fun heq => hnot (heq ▸ List.mem_map_of_mem hb)
      rw [hplaces, OrderedMap.find?_insertNew_of_ne hne]
      exact hfresh b (List.mem_cons_of_mem a hb)

end KeyedPlacement
