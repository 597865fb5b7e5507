import Llvmta.Memory.LruMinAgeAbstractCache

/-!
# Implicit sets

The stored elements of an implicit set are its members or, when it is negated, all that
are not members. `count`, `size`, `insert` and `erase` take care of the negation. The
iterators are those of the underlying container: they visit the stored elements in either
case.
-/

namespace Llvmta

namespace ImplicitSet

variable {s s₁ s₂ : ImplicitSet} {x y : ℕ}

/-- The members that a set stands for. -/
instance : Membership ℕ ImplicitSet := ⟨fun s x => s.count x = 1⟩

theorem mem_iff : x ∈ s ↔ (x ∈ s.elements ↔ s.isUniverse = false) := by
  change s.count x = 1 ↔ _
  unfold count
  cases s.isUniverse <;> by_cases h : x ∈ s.elements <;> simp [h]

theorem mem_of_positive (h : s.isUniverse = false) : x ∈ s ↔ x ∈ s.elements := by
  simp [mem_iff, h]

theorem mem_of_negated (h : s.isUniverse = true) : x ∈ s ↔ x ∉ s.elements := by
  simp [mem_iff, h]

def isNegated (s : ImplicitSet) : Bool := s.isUniverse

def size (s : ImplicitSet) : ℕ :=
  if s.isNegated then 2 ^ 64 - 1 - s.elements.length else s.elements.length

/-- `Super::insert` -/
def store (s : ImplicitSet) (elem : ℕ) : ImplicitSet :=
  if elem ∈ s.elements then s else { s with elements := elem :: s.elements }

/-- `Super::erase` -/
def discard (s : ImplicitSet) (elem : ℕ) : ImplicitSet :=
  { s with elements := s.elements.filter (· ≠ elem) }

def insert (s : ImplicitSet) (elem : ℕ) : ImplicitSet :=
  if s.isNegated then s.discard elem else s.store elem

def erase (s : ImplicitSet) (elem : ℕ) : ImplicitSet :=
  if s.isNegated then s.store elem else s.discard elem

/-- Inserts what the iterators between `first` and `last` visit. -/
def insertRange (s : ImplicitSet) (range : List ℕ) : ImplicitSet := range.foldl insert s

def intersect (s₁ s₂ : ImplicitSet) : ImplicitSet :=
  if s₁.isNegated then
    if s₂.isNegated then
      ⟨s₁.elements ++ s₂.elements.filter (· ∉ s₁.elements), true⟩
    else ⟨s₂.elements.filter (· ∉ s₁.elements), false⟩
  else if s₂.isNegated then ⟨s₁.elements.filter (· ∉ s₂.elements), false⟩
  else ⟨s₁.elements.filter (· ∈ s₂.elements), false⟩

@[simp] theorem isUniverse_store : (s.store x).isUniverse = s.isUniverse := by
  unfold store
  split_ifs <;> rfl

@[simp] theorem mem_elements_store : y ∈ (s.store x).elements ↔ y = x ∨ y ∈ s.elements := by
  unfold store
  split_ifs with h
  · constructor
    · exact .inr
    · rintro (rfl | hy)
      · exact h
      · exact hy
  · exact List.mem_cons

@[simp] theorem isUniverse_discard : (s.discard x).isUniverse = s.isUniverse := rfl

@[simp] theorem mem_elements_discard :
    y ∈ (s.discard x).elements ↔ y ≠ x ∧ y ∈ s.elements := by
  simp [discard, and_comm]

@[simp] theorem isUniverse_insert : (s.insert x).isUniverse = s.isUniverse := by
  unfold insert
  split_ifs <;> simp

/-- Insertion adds the element in either form. -/
@[simp] theorem mem_insert : y ∈ s.insert x ↔ y = x ∨ y ∈ s := by
  simp only [mem_iff, isUniverse_insert]
  unfold insert isNegated
  by_cases hy : y = x <;> cases s.isUniverse <;> simp [hy]

/-- Erasure removes the element in either form. -/
@[simp] theorem mem_erase : y ∈ s.erase x ↔ y ≠ x ∧ y ∈ s := by
  simp only [mem_iff]
  unfold erase isNegated
  by_cases hy : y = x <;> cases hs : s.isUniverse <;> simp [hy, hs]

@[simp] theorem isUniverse_insertRange {range : List ℕ} :
    (s.insertRange range).isUniverse = s.isUniverse := by
  unfold insertRange
  induction range generalizing s with
  | nil => rfl
  | cons x range ih => rw [List.foldl_cons, ih, isUniverse_insert]

@[simp] theorem mem_insertRange {range : List ℕ} :
    y ∈ s.insertRange range ↔ y ∈ range ∨ y ∈ s := by
  unfold insertRange
  induction range generalizing s with
  | nil => simp
  | cons x range ih =>
    rw [List.foldl_cons, ih, mem_insert, List.mem_cons]
    tauto

/-- The intersection takes the negated forms into account. -/
@[simp] theorem mem_intersect : y ∈ intersect s₁ s₂ ↔ y ∈ s₁ ∧ y ∈ s₂ := by
  simp only [mem_iff]
  unfold intersect isNegated
  cases h₁ : s₁.isUniverse <;> cases h₂ : s₂.isUniverse <;> by_cases hy : y ∈ s₁.elements <;>
    simp [hy]

theorem isUniverse_intersect :
    (intersect s₁ s₂).isUniverse = (s₁.isUniverse && s₂.isUniverse) := by
  unfold intersect isNegated
  cases s₁.isUniverse <;> cases s₂.isUniverse <;> rfl

theorem nodup_intersect (h₁ : s₁.elements.Nodup) (h₂ : s₂.elements.Nodup) :
    (intersect s₁ s₂).elements.Nodup := by
  unfold intersect
  split_ifs
  · apply h₁.append (h₂.filter _)
    intro x hx hx'
    simp [hx] at hx'
  · exact h₂.filter _
  · exact h₁.filter _
  · exact h₁.filter _

/-- A set that contains a negated one is negated. -/
theorem isUniverse_of_subset (hsub : ∀ x, x ∈ s₁ → x ∈ s₂) (h : s₁.isUniverse = true) :
    s₂.isUniverse = true := by
  by_contra hpos
  rw [Bool.not_eq_true] at hpos
  obtain ⟨x, hx⟩ := Infinite.exists_notMem_finset (s₁.elements ++ s₂.elements).toFinset
  simp only [List.mem_toFinset, List.mem_append, not_or] at hx
  have hmem := hsub x ((mem_of_negated h).mpr hx.1)
  exact hx.2 ((mem_of_positive hpos).mp hmem)

end ImplicitSet

end Llvmta
