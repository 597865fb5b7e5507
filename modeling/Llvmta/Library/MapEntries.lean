import Llvmta.Library.OrderedMap

/-!
# Properties of all entries of a map

A map is a partial description: each of its entries claims something about its
key, a key without an entry claims nothing. After a change that concerns one key
only, the entry of this key is all that has to be checked, whether it was set,
forgotten or left as it was.
-/

namespace OrderedMap

variable {κ β : Type*} [LinearOrder κ]

/-- All entries satisfy `R`. -/
def Forall (m : OrderedMap κ β) (R : κ → β → Prop) : Prop := ∀ k b, m.find? k = some b → R k b

/-- The entries that the maps have in common. -/
def agree [DecidableEq β] (m m' : OrderedMap κ β) : OrderedMap κ β :=
  m.filter fun k b => m'.find? k = some b

/-- Sets the entry of a key, or removes it. -/
def assign (m : OrderedMap κ β) (k : κ) : Option β → OrderedMap κ β
  | some b => m.insert k b
  | none => m.erase k

variable {m m' : OrderedMap κ β} {R R' : κ → β → Prop} {k : κ} {b : β}

theorem forall_empty : (empty : OrderedMap κ β).Forall R := fun _ _ h => nomatch h

theorem forall_insert : (m.insert k b).Forall R ↔
    R k b ∧ ∀ k', k' ≠ k → ∀ b', m.find? k' = some b' → R k' b' := by
  constructor
  · intro h
    constructor
    · exact h k b (find?_insert_self m k b)
    · intro k' hk b' hb'
      exact h k' b' ((find?_insert_of_ne hk.symm).trans hb')
  · rintro ⟨hk, h⟩ k' b' hb'
    rw [find?_insert] at hb'
    split_ifs at hb' with heq
    · cases hb'
      exact heq ▸ hk
    · exact h k' (Ne.symm heq) b' hb'

theorem Forall.insert (h : m.Forall R) (hk : R k b) : (m.insert k b).Forall R :=
  forall_insert.mpr ⟨hk, fun k' _ => h k'⟩

theorem forall_filter {p : κ → β → Bool} : (m.filter p).Forall R ↔
    ∀ k b, m.find? k = some b → p k b = true → R k b := by
  simp only [Forall, find?_filter, Option.filter_eq_some_iff, and_imp]

theorem forall_erase : (m.erase k).Forall R ↔
    ∀ k', k' ≠ k → ∀ b, m.find? k' = some b → R k' b := by
  rw [erase, forall_filter]
  constructor
  · intro h k' hk b hb
    exact h k' b hb (decide_eq_true hk)
  · intro h k' b hb hk
    exact h k' (of_decide_eq_true hk) b hb

theorem forall_assign {o : Option β} : (m.assign k o).Forall R ↔
    (∀ b, o = some b → R k b) ∧ ∀ k', k' ≠ k → ∀ b, m.find? k' = some b → R k' b := by
  cases o with
  | none => exact forall_erase.trans (and_iff_right fun _ h => nomatch h).symm
  | some b => simp only [assign, forall_insert, Option.some_inj, forall_eq']

theorem find?_agree [DecidableEq β] : (m.agree m').find? k = some b ↔
    m.find? k = some b ∧ m'.find? k = some b := by
  rw [agree, find?_filter, Option.filter_eq_some_iff, decide_eq_true_eq]

theorem Forall.agree_left [DecidableEq β] (h : m.Forall R) (m' : OrderedMap κ β) :
    (m.agree m').Forall R := fun k b hb => h k b (find?_agree.mp hb).1

theorem Forall.agree_right [DecidableEq β] (h : m'.Forall R) (m : OrderedMap κ β) :
    (m.agree m').Forall R := fun k b hb => h k b (find?_agree.mp hb).2

section OneKey

variable (h : m.Forall R) (hR : ∀ k', k' ≠ k → ∀ b, R k' b → R' k' b)

include h hR

theorem Forall.insert_iff : (m.insert k b).Forall R' ↔ R' k b := by
  rw [forall_insert]
  exact and_iff_left fun k' hk b' hb' => hR k' hk b' (h k' b' hb')

theorem Forall.erase : (m.erase k).Forall R' :=
  forall_erase.mpr fun k' hk b hb => hR k' hk b (h k' b hb)

theorem Forall.assign_iff {o : Option β} : (m.assign k o).Forall R' ↔
    ∀ b, o = some b → R' k b := by
  rw [forall_assign]
  exact and_iff_left fun k' hk b hb => hR k' hk b (h k' b hb)

theorem Forall.keep_iff : m.Forall R' ↔ ∀ b, m.find? k = some b → R' k b := by
  constructor
  · intro hkeep
    exact hkeep k
  · intro hk k' b hb
    by_cases heq : k' = k
    · subst heq
      exact hk b hb
    · exact hR k' heq b (h k' b hb)

end OneKey

end OrderedMap
