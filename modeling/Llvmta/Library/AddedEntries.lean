import Mathlib.Data.List.Basic
import Mathlib.Tactic

/-!
# Added entries

Entries are added to a partial map one after the other: a value for a key that has one is
joined with it. What a list of entries adds to a key is what its entries for that key add.
-/

namespace AddedEntries

variable {κ α : Type*} {join : α → α → α} {m m' : κ → Option α}
variable {l : List (κ × α)} {k : κ} {a : α}

/-- The list holds the entries of the map, each key once. -/
structure Lists (l : List (κ × α)) (m : κ → Option α) : Prop where
  nodup : (l.map Prod.fst).Nodup
  mem_iff : ∀ k a, (k, a) ∈ l ↔ m k = some a

theorem Lists.of_mem {e : κ × α} (h : Lists l m) (he : e ∈ l) : m e.1 = some e.2 :=
  (h.mem_iff e.1 e.2).mp he

variable [DecidableEq κ]

def add (join : α → α → α) (m : κ → Option α) (e : κ × α) : κ → Option α :=
  Function.update m e.1 ((m e.1).merge join (some e.2))

theorem add_self (m : κ → Option α) (e : κ × α) :
    add join m e e.1 = (m e.1).merge join (some e.2) := Function.update_self ..

theorem add_of_ne {e : κ × α} (h : k ≠ e.1) (m : κ → Option α) : add join m e k = m k :=
  Function.update_of_ne h ..

theorem eq_add {e : κ × α} (hself : m' e.1 = (m e.1).merge join (some e.2))
    (hother : ∀ k, k ≠ e.1 → m' k = m k) : m' = add join m e := by
  funext k
  by_cases h : k = e.1
  · subst h
    rw [hself, add_self]
  · rw [hother k h, add_of_ne h]

def addAll (join : α → α → α) (m : κ → Option α) (l : List (κ × α)) : κ → Option α :=
  l.foldl (add join) m

/-- The values of a list joined from left to right onto a value. -/
def joinAll (join : α → α → α) : Option α → List α → Option α :=
  List.foldl fun o a => o.merge join (some a)

/-- What is listed for a key. -/
def valuesOf (l : List (κ × α)) (k : κ) : List α := (l.filter fun e => e.1 = k).map Prod.snd

theorem valuesOf_cons (e : κ × α) (l : List (κ × α)) (k : κ) :
    valuesOf (e :: l) k = if e.1 = k then e.2 :: valuesOf l k else valuesOf l k := by
  by_cases he : e.1 = k <;> simp [valuesOf, he]

theorem addAll_apply (join : α → α → α) (m : κ → Option α) (l : List (κ × α)) (k : κ) :
    addAll join m l k = joinAll join (m k) (valuesOf l k) := by
  induction l generalizing m with
  | nil => rfl
  | cons e l ih =>
    have hcons : addAll join m (e :: l) = addAll join (add join m e) l := rfl
    rw [hcons, ih, valuesOf_cons]
    split_ifs with he
    · subst he
      rw [add_self]
      rfl
    · rw [add_of_ne fun h => he h.symm]

theorem valuesOf_eq_nil (h : k ∉ l.map Prod.fst) : valuesOf l k = [] := by
  rw [valuesOf, List.map_eq_nil_iff, List.filter_eq_nil_iff]
  intro e he hk
  exact h (of_decide_eq_true hk ▸ List.mem_map_of_mem he)

/-- A key has at most one entry. -/
theorem valuesOf_eq (hl : (l.map Prod.fst).Nodup) (h : (k, a) ∈ l) : valuesOf l k = [a] := by
  induction l with
  | nil => cases h
  | cons e l ih =>
    obtain ⟨he, hl⟩ := List.nodup_cons.mp hl
    rw [valuesOf_cons]
    rcases List.mem_cons.mp h with rfl | h
    · rw [if_pos rfl, valuesOf_eq_nil he]
    · have hne : e.1 ≠ k := fun heq => he (heq ▸ List.mem_map_of_mem (f := Prod.fst) h)
      rw [if_neg hne, ih hl h]

theorem Lists.valuesOf_eq (h : Lists l m) (k : κ) : valuesOf l k = (m k).toList := by
  cases hk : m k with
  | some a => exact AddedEntries.valuesOf_eq h.nodup ((h.mem_iff k a).mpr hk)
  | none =>
    rw [valuesOf_eq_nil, Option.toList_none]
    intro hmem
    obtain ⟨e, he, rfl⟩ := List.mem_map.mp hmem
    rw [h.of_mem he] at hk
    cases hk

/-- Adding all entries of a map joins the two maps key by key. -/
theorem Lists.addAll_apply (h : Lists l m') (m : κ → Option α) (k : κ) :
    addAll join m l k = (m k).merge join (m' k) := by
  rw [AddedEntries.addAll_apply, h.valuesOf_eq]
  cases m' k <;> simp [joinAll]

section Order

variable [SemilatticeSup α]

/-- The joined values are the least upper bound of the values and the first one. -/
theorem isLUB_joinAll {o : Option α} {values : List α}
    (h : joinAll (· ⊔ ·) o values = some a) : IsLUB ({x | o = some x} ∪ {x | x ∈ values}) a := by
  induction values generalizing o with
  | nil =>
    have ho : o = some a := h
    simp [ho]
  | cons v values ih =>
    have hlub := ih h
    constructor
    · rintro x (hx | hx)
      · cases hx
        exact le_sup_left.trans (hlub.1 (.inl rfl))
      · rcases List.mem_cons.mp hx with rfl | hx
        · cases o with
          | none => exact hlub.1 (.inl rfl)
          | some x' => exact le_sup_right.trans (hlub.1 (.inl rfl))
        · exact hlub.1 (.inr hx)
    · intro b hb
      apply hlub.2
      rintro x (hx | hx)
      · have hv : v ≤ b := hb (.inr List.mem_cons_self)
        cases o with
        | none => cases hx; exact hv
        | some x' => cases hx; exact sup_le (hb (.inl rfl)) hv
      · exact hb (.inr (List.mem_cons_of_mem v hx))

end Order

end AddedEntries
