import Llvmta.Library.LruSet

/-!
# Access paths and least-recently-used sets

A path is a list of accesses, most recent first. What an `A`-way set holds after
a path depends on how many other lines were accessed since the last access to a
line: `recency` counts them, and a line of recency below `A` is held at a
position of at most its recency, whatever the set held before the path.
-/

namespace Lru

variable {τ : Type*} [DecidableEq τ]

/-- The accesses since the last one to `t`. -/
def since (π : List τ) (t : τ) : List τ := π.takeWhile fun u => u ≠ t

/-- The number of distinct lines accessed since the last access to `t`. -/
def recency (π : List τ) (t : τ) : ℕ := (since π t).toFinset.card

theorem since_cons_self (π : List τ) (t : τ) : since (t :: π) t = [] := by
  simp [since]

theorem since_cons_of_ne {x t : τ} (h : x ≠ t) (π : List τ) :
    since (x :: π) t = x :: since π t := by
  simp [since, h]

@[simp] theorem recency_cons_self (π : List τ) (t : τ) : recency (t :: π) t = 0 := by
  simp [recency, since_cons_self]

theorem recency_cons_of_ne {x t : τ} (h : x ≠ t) (π : List τ) :
    recency (x :: π) t = recency π t + if x ∈ since π t then 0 else 1 := by
  unfold recency
  rw [since_cons_of_ne h, List.toFinset_cons]
  split_ifs with hx
  · rw [Finset.insert_eq_of_mem (List.mem_toFinset.mpr hx), Nat.add_zero]
  · rw [Finset.card_insert_of_notMem fun hmem => hx (List.mem_toFinset.mp hmem)]

theorem recency_le_cons {x t : τ} (h : x ≠ t) (π : List τ) :
    recency π t ≤ recency (x :: π) t ∧ recency (x :: π) t ≤ recency π t + 1 := by
  rw [recency_cons_of_ne h]
  split_ifs <;> omega

/-- A line accessed since the last access to `t` is at least as recent as `t`. -/
theorem since_subset {π : List τ} {x t : τ} (h : x ∈ since π t) :
    ∀ u ∈ since π x, u ∈ since π t := by
  induction π with
  | nil => simp [since]
  | cons y π ih =>
    by_cases hyt : y = t
    · subst y
      rw [since_cons_self] at h
      exact absurd h List.not_mem_nil
    · rw [since_cons_of_ne hyt] at h ⊢
      by_cases hyx : y = x
      · subst y
        simp [since_cons_self]
      · rw [since_cons_of_ne hyx]
        have hx : x ∈ since π t := (List.mem_cons.mp h).resolve_left (Ne.symm hyx)
        intro u hu
        rcases List.mem_cons.mp hu with rfl | hu
        · exact List.mem_cons_self
        · exact List.mem_cons_of_mem _ (ih hx u hu)

theorem recency_le_of_mem {π : List τ} {x t : τ} (h : x ∈ since π t) :
    recency π x ≤ recency π t := by
  apply Finset.card_le_card
  intro u hu
  rw [List.mem_toFinset] at hu ⊢
  exact since_subset h u hu

theorem mem_of_mem_since {π : List τ} {x t : τ} (h : x ∈ since π t) : x ∈ π :=
  (List.takeWhile_sublist _).subset h

theorem notMem_since_self (π : List τ) (t : τ) : t ∉ since π t := by
  induction π with
  | nil => exact List.not_mem_nil
  | cons x π ih =>
    by_cases hx : x = t
    · subst x
      rw [since_cons_self]
      exact List.not_mem_nil
    · rw [since_cons_of_ne hx]
      exact List.not_mem_cons_of_ne_of_not_mem (Ne.symm hx) ih

/-- The accesses since the last one to `t` and that one are part of the path. -/
theorem recency_lt_card {π : List τ} {t : τ} (h : t ∈ π) : recency π t < π.toFinset.card := by
  apply Finset.card_lt_card
  rw [Finset.ssubset_iff_of_subset]
  · exact ⟨t, List.mem_toFinset.mpr h, fun hmem =>
      notMem_since_self π t (List.mem_toFinset.mp hmem)⟩
  · intro u hu
    rw [List.mem_toFinset] at hu ⊢
    exact mem_of_mem_since hu

/-- What is accessed after `t` is accessed since the last access to `t`. -/
theorem since_append_of_notMem {σ : List τ} {t : τ} (h : t ∉ σ) (π : List τ) :
    since (σ ++ π) t = σ ++ since π t := by
  induction σ with
  | nil => rfl
  | cons x σ ih =>
    have hx : x ≠ t := fun hx => h (hx ▸ List.mem_cons_self)
    rw [List.cons_append, since_cons_of_ne hx, ih fun hmem => h (List.mem_cons_of_mem x hmem),
      List.cons_append]

/-- An access to `t` hides what was accessed before it. -/
theorem since_append_of_mem {σ : List τ} {t : τ} (h : t ∈ σ) (π : List τ) :
    since (σ ++ π) t = since σ t := by
  induction σ with
  | nil => exact absurd h List.not_mem_nil
  | cons x σ ih =>
    by_cases hx : x = t
    · subst x
      rw [List.cons_append, since_cons_self, since_cons_self]
    · rw [List.cons_append, since_cons_of_ne hx, since_cons_of_ne hx,
        ih ((List.mem_cons.mp h).resolve_left (Ne.symm hx))]

/-- One more access anywhere in a path counts at most once. -/
theorem recency_append_cons_le (σ π : List τ) (u t : τ) :
    recency (σ ++ u :: π) t ≤ recency (σ ++ π) t + 1 := by
  by_cases ht : t ∈ σ
  · rw [recency, recency, since_append_of_mem ht, since_append_of_mem ht]
    exact Nat.le_add_right _ 1
  · rw [recency, recency, since_append_of_notMem ht, since_append_of_notMem ht]
    by_cases hu : u = t
    · subst u
      rw [since_cons_self, List.append_nil]
      apply (Finset.card_le_card _).trans (Nat.le_add_right _ 1)
      intro x hx
      rw [List.mem_toFinset] at hx ⊢
      exact List.mem_append_left _ hx
    · rw [since_cons_of_ne hu]
      apply (Finset.card_le_card _).trans (Finset.card_insert_le u _)
      intro x hx
      simpa [or_left_comm] using hx

/-- Accesses to the lines of `B` count at most once for each of them. -/
theorem recency_append_le {σ : List τ} {p : τ → Bool} {B : Finset τ}
    (hB : ∀ x ∈ σ, p x = false → x ∈ B) (π : List τ) (t : τ) :
    recency (σ ++ π) t ≤ recency ((since σ t).filter p ++ π) t + B.card := by
  have hkept : t ∉ (since σ t).filter p := fun h =>
    notMem_since_self σ t (List.mem_of_mem_filter h)
  rw [recency, recency, since_append_of_notMem hkept]
  apply (Finset.card_le_card _).trans (Finset.card_union_le _ _)
  intro x hx
  rw [List.mem_toFinset] at hx
  rw [Finset.mem_union, List.mem_toFinset, List.mem_append, List.mem_filter]
  have hsplit : x ∈ since σ t ∨ x ∈ since π t := by
    by_cases ht : t ∈ σ
    · rw [since_append_of_mem ht] at hx
      exact .inl hx
    · rw [since_append_of_notMem ht] at hx
      apply (List.mem_append.mp hx).imp_left
      intro hσ
      rwa [← List.append_nil σ, since_append_of_notMem ht, since, List.takeWhile_nil,
        List.append_nil]
  rcases hsplit with hσ | hπ
  · cases hp : p x with
    | true => exact .inl (.inl ⟨hσ, rfl⟩)
    | false => exact .inr (hB x (mem_of_mem_since hσ) hp)
  · exact .inl (.inr hπ)

namespace CacheSet

variable {A : ℕ}

/-- The set after the accesses of a path. -/
def run (s : CacheSet τ A) (π : List τ) : CacheSet τ A := π.foldr (fun t s => s.access t) s

@[simp] theorem run_nil (s : CacheSet τ A) : s.run [] = s := rfl

@[simp] theorem run_cons (s : CacheSet τ A) (x : τ) (π : List τ) :
    s.run (x :: π) = (s.run π).access x := rfl

/-- A line of recency below `A` is held, at a position of at most its recency. -/
theorem within_run (s : CacheSet τ A) {π : List τ} {t : τ} (ht : t ∈ π) (h : recency π t < A) :
    (s.run π).Within t (recency π t) := by
  induction π generalizing t with
  | nil => exact absurd ht List.not_mem_nil
  | cons x π ih =>
    by_cases hxt : x = t
    · subst x
      exact within_access_self _ _ (Nat.zero_lt_of_lt h) _
    · have htπ : t ∈ π := (List.mem_cons.mp ht).resolve_left (Ne.symm hxt)
      rw [recency_cons_of_ne hxt] at h ⊢
      rw [run_cons]
      split_ifs at h ⊢ with hx
      · have hle := recency_le_of_mem hx
        have hxs := ih (mem_of_mem_since hx) (by omega)
        exact (ih htπ (by omega)).access_of_le hxs hle
      · exact (ih htπ (by omega)).access_succ h

end CacheSet

end Lru
