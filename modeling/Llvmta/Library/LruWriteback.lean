import Llvmta.Library.LruSet

/-!
# Least-recently-used sets with dirty lines

In write-back mode a set also knows which of its lines are dirty. A store makes
its line dirty, having loaded it if it was absent; a line that leaves the set is
clean when it comes back. An access writes back the dirty line that it evicts.
-/

namespace Lru

variable {τ : Type*} [DecidableEq τ]

/-- An `A`-way set and those of its lines that are dirty. -/
structure WritebackSet (τ : Type*) [DecidableEq τ] (A : ℕ) where
  set : CacheSet τ A
  dirty : Finset τ
  mem_of_dirty : ∀ t ∈ dirty, t ∈ set

namespace WritebackSet

variable {A : ℕ}

def empty : WritebackSet τ A := ⟨.empty, ∅, fun t ht => absurd ht (Finset.notMem_empty t)⟩

/-- A load or a store of a line. -/
def access (c : WritebackSet τ A) (store : Bool) (t : τ) : WritebackSet τ A where
  set := c.set.access t
  dirty := (if store then insert t c.dirty else c.dirty).filter fun u => u ∈ c.set.access t
  mem_of_dirty _ hu := (Finset.mem_filter.mp hu).2

/-- A dirty line left the set. -/
def WritesBack (c c' : WritebackSet τ A) : Prop := ∃ v ∈ c.dirty, v ∉ c'.set

/-- A line turned dirty. -/
def TurnsDirty (c c' : WritebackSet τ A) : Prop := ∃ t ∈ c'.dirty, t ∉ c.dirty

@[simp] theorem set_access (c : WritebackSet τ A) (store : Bool) (t : τ) :
    (c.access store t).set = c.set.access t := rfl

theorem mem_dirty_access {c : WritebackSet τ A} {store : Bool} {t u : τ} :
    u ∈ (c.access store t).dirty ↔
      (u ∈ c.dirty ∨ store = true ∧ u = t) ∧ u ∈ c.set.access t := by
  rw [access, Finset.mem_filter]
  cases store with
  | true => rw [if_pos rfl, Finset.mem_insert, or_comm]; simp
  | false => simp

/-- A dirty line that is not the stored one was dirty before. -/
theorem mem_dirty_of_ne {c : WritebackSet τ A} {store : Bool} {t u : τ} (hne : u ≠ t)
    (h : u ∈ (c.access store t).dirty) : u ∈ c.dirty :=
  (mem_dirty_access.mp h).1.resolve_right fun hu => hne hu.2

/-- A load turns no line dirty. -/
theorem mem_dirty_of_load {c : WritebackSet τ A} {t u : τ} (h : u ∈ (c.access false t).dirty) :
    u ∈ c.dirty :=
  (mem_dirty_access.mp h).1.resolve_right fun hu => absurd hu.1 (by decide)

theorem not_writesBack_self (c : WritebackSet τ A) : ¬ WritesBack c c := by
  rintro ⟨v, hv, hout⟩
  exact hout (c.mem_of_dirty v hv)

theorem not_turnsDirty_self (c : WritebackSet τ A) : ¬ TurnsDirty c c := by
  rintro ⟨t, ht, hclean⟩
  exact hclean ht

/-- A store can turn its own line dirty only. -/
theorem turnsDirty_access {c : WritebackSet τ A} {store : Bool} {t : τ}
    (h : TurnsDirty c (c.access store t)) : store = true ∧ t ∉ c.dirty := by
  obtain ⟨u, hu, hclean⟩ := h
  obtain ⟨hstore, rfl⟩ := (mem_dirty_access.mp hu).1.resolve_left hclean
  exact ⟨hstore, hclean⟩

end WritebackSet

end Lru
