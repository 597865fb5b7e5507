import Mathlib.Data.List.Basic
import Mathlib.Data.List.Nodup
import Mathlib.Data.Finset.Card
import Mathlib.Tactic

/-!
# Least-recently-used sets

A set of `A` ways holds distinct lines, most recent first. An access moves the
line to the front; the line that leaves the last way is evicted. The age of a
line is its position, and equals the number of lines in the set when the line
is absent. All facts about an access follow from `mem_access_iff` and
`age_access`.
-/

namespace Lru

variable {τ : Type*} [DecidableEq τ]

/-- An `A`-way set: distinct lines in recency order. -/
@[ext] structure CacheSet (τ : Type*) (A : ℕ) where
  lines : List τ
  nodup : lines.Nodup
  length_le : lines.length ≤ A

namespace CacheSet

variable {A : ℕ}

instance : Membership τ (CacheSet τ A) := ⟨fun s t => t ∈ s.lines⟩

instance (s : CacheSet τ A) (t : τ) : Decidable (t ∈ s) :=
  inferInstanceAs (Decidable (t ∈ s.lines))

def empty : CacheSet τ A := ⟨[], List.nodup_nil, Nat.zero_le A⟩

def age (s : CacheSet τ A) (t : τ) : ℕ := s.lines.idxOf t

/-- Move the accessed line to the front and drop what leaves the last way. -/
def access (s : CacheSet τ A) (t : τ) : CacheSet τ A where
  lines := (t :: s.lines.erase t).take A
  nodup := by
    have h : (t :: s.lines.erase t).Nodup :=
      List.nodup_cons.mpr ⟨s.nodup.not_mem_erase, s.nodup.erase t⟩
    exact h.sublist (List.take_sublist _ _)
  length_le := List.length_take_le _ _

omit [DecidableEq τ] in
theorem mem_def {s : CacheSet τ A} {t : τ} : t ∈ s ↔ t ∈ s.lines := Iff.rfl

omit [DecidableEq τ] in
@[simp] theorem notMem_empty (t : τ) : t ∉ (empty : CacheSet τ A) := List.not_mem_nil

theorem mem_iff_age_lt (s : CacheSet τ A) (t : τ) : t ∈ s ↔ s.age t < s.lines.length :=
  List.idxOf_lt_length_iff.symm

theorem age_lt_ways {s : CacheSet τ A} {t : τ} (h : t ∈ s) : s.age t < A :=
  ((mem_iff_age_lt s t).mp h).trans_le s.length_le

theorem age_le_length (s : CacheSet τ A) (t : τ) : s.age t ≤ s.lines.length :=
  List.idxOf_le_length

theorem age_injective {s : CacheSet τ A} {t u : τ} (h : t ∈ s) (he : s.age t = s.age u) :
    t = u :=
  (List.idxOf_inj h).mp he

end CacheSet

/-- Removing another line moves a line forward exactly when it stood behind it. -/
theorem idxOf_erase_of_ne {l : List τ} {t u : τ} (hne : u ≠ t) (hl : l.Nodup) :
    (l.erase t).idxOf u = if l.idxOf t < l.idxOf u then l.idxOf u - 1 else l.idxOf u := by
  induction l with
  | nil => simp
  | cons x l ih =>
    have hl' := (List.nodup_cons.mp hl).2
    by_cases hxt : x = t
    · subst x
      have hpos : (t :: l).idxOf u = l.idxOf u + 1 := List.idxOf_cons_ne l (Ne.symm hne)
      rw [List.erase_cons_head, List.idxOf_cons_self, hpos]
      simp
    · rw [List.erase_cons_tail (by simpa using hxt), List.idxOf_cons_ne l hxt]
      by_cases hxu : x = u
      · subst x
        simp
      · rw [List.idxOf_cons_ne _ hxu, List.idxOf_cons_ne l hxu, ih hl']
        split_ifs <;> omega

namespace CacheSet

variable {A : ℕ}

/-- Age after an access to `t`, before the set is cut down to its ways. -/
def shiftedAge (s : CacheSet τ A) (t u : τ) : ℕ :=
  if s.age t < s.age u then s.age u else s.age u + 1

theorem idxOf_touched (s : CacheSet τ A) {t u : τ} (hne : u ≠ t) :
    (t :: s.lines.erase t).idxOf u = s.shiftedAge t u := by
  rw [List.idxOf_cons_ne _ (Ne.symm hne), idxOf_erase_of_ne hne s.nodup]
  unfold shiftedAge age
  split_ifs with h <;> omega

theorem mem_take_iff_idxOf_lt {l : List τ} {n : ℕ} {u : τ} :
    u ∈ l.take n ↔ u ∈ l ∧ l.idxOf u < n := by
  induction l generalizing n with
  | nil => simp
  | cons x l ih =>
    cases n with
    | zero => simp
    | succ n =>
      by_cases hx : x = u
      · subst x
        simp
      · have hu : u ≠ x := Ne.symm hx
        simp [List.idxOf_cons_ne l hx, hu, ih]

theorem idxOf_take_of_mem {l : List τ} {n : ℕ} {u : τ} (h : u ∈ l.take n) :
    (l.take n).idxOf u = l.idxOf u := by
  conv_rhs => rw [← List.take_append_drop n l]
  rw [List.idxOf_append_of_mem h]

theorem mem_access_self (s : CacheSet τ A) (t : τ) (hA : 0 < A) : t ∈ s.access t := by
  obtain ⟨n, rfl⟩ := Nat.exists_eq_succ_of_ne_zero hA.ne'
  exact List.mem_cons_self

@[simp] theorem age_access_self (s : CacheSet τ A) (t : τ) : (s.access t).age t = 0 := by
  cases A with
  | zero => simp [age, access]
  | succ n => simp [age, access]

/-- Which other lines an access leaves in the set. -/
theorem mem_access_iff (s : CacheSet τ A) {t u : τ} (hne : u ≠ t) :
    u ∈ s.access t ↔ u ∈ s ∧ s.shiftedAge t u < A := by
  change u ∈ (t :: s.lines.erase t).take A ↔ _
  rw [mem_take_iff_idxOf_lt, idxOf_touched s hne]
  have hmem : u ∈ t :: s.lines.erase t ↔ u ∈ s.lines := by
    simp [List.mem_erase_of_ne hne, hne]
  rw [hmem, mem_def]

/-- Where an access leaves the other lines. -/
theorem age_access (s : CacheSet τ A) {t u : τ} (hne : u ≠ t) (h : u ∈ s.access t) :
    (s.access t).age u = s.shiftedAge t u :=
  (idxOf_take_of_mem h).trans (idxOf_touched s hne)

theorem shiftedAge_le (s : CacheSet τ A) (t u : τ) : s.shiftedAge t u ≤ s.age u + 1 := by
  unfold shiftedAge
  split_ifs <;> omega

theorem age_le_shiftedAge (s : CacheSet τ A) (t u : τ) : s.age u ≤ s.shiftedAge t u := by
  unfold shiftedAge
  split_ifs <;> omega

/-- `t` is held at position at most `a`. -/
def Within (s : CacheSet τ A) (t : τ) (a : ℕ) : Prop := t ∈ s ∧ s.age t ≤ a

theorem Within.mono {s : CacheSet τ A} {t : τ} {a b : ℕ} (h : s.Within t a) (hab : a ≤ b) :
    s.Within t b := ⟨h.1, h.2.trans hab⟩

theorem within_access_self (s : CacheSet τ A) (t : τ) (hA : 0 < A) (a : ℕ) :
    (s.access t).Within t a :=
  ⟨mem_access_self s t hA, by simp⟩

/-- Any access ages a line by at most one way. -/
theorem Within.access_succ {s : CacheSet τ A} {t u : τ} {a : ℕ} (h : s.Within u a)
    (ha : a + 1 < A) : (s.access t).Within u (a + 1) := by
  by_cases hne : u = t
  · subst u
    exact within_access_self s t (Nat.zero_lt_of_lt ha) _
  · have hle := s.shiftedAge_le t u
    have hmem : u ∈ s.access t := (mem_access_iff s hne).mpr ⟨h.1, by have := h.2; omega⟩
    exact ⟨hmem, by rw [age_access s hne hmem]; have := h.2; omega⟩

/-- An access to a line held in front of position `b` ages no line from `b` on. -/
theorem Within.access_of_le {s : CacheSet τ A} {t u : τ} {a b : ℕ} (h : s.Within u a)
    (ht : s.Within t b) (hba : b ≤ a) : (s.access t).Within u a := by
  by_cases hne : u = t
  · subst u
    exact within_access_self s t (Nat.zero_lt_of_lt (age_lt_ways ht.1)) _
  · have hle : s.shiftedAge t u ≤ a ∧ s.shiftedAge t u < A := by
      have hu := h.2
      have hu' := age_lt_ways h.1
      have ht' := age_lt_ways ht.1
      have hdiff : s.age t ≠ s.age u := fun he => hne (age_injective ht.1 he).symm
      unfold shiftedAge
      split_ifs with hlt
      · exact ⟨hu, hu'⟩
      · have := ht.2
        omega
    have hmem : u ∈ s.access t := (mem_access_iff s hne).mpr ⟨h.1, hle.2⟩
    exact ⟨hmem, by rw [age_access s hne hmem]; exact hle.1⟩

/-- A line that an access leaves in the set was there, no further back. -/
theorem mem_of_mem_access {s : CacheSet τ A} {t u : τ} (hne : u ≠ t) (h : u ∈ s.access t) :
    u ∈ s ∧ s.age u ≤ (s.access t).age u := by
  have hs := (mem_access_iff s hne).mp h
  exact ⟨hs.1, by rw [age_access s hne h]; exact s.age_le_shiftedAge t u⟩

/-- Lower bounds grow: a line at age at least `c` is pushed back by an access to
a line that is absent or at least `b ≥ c` ways deep. -/
theorem succ_le_age_access {s : CacheSet τ A} {t u : τ} {b c : ℕ} (hne : u ≠ t)
    (h : u ∈ s.access t) (hc : c ≤ s.age u) (hb : t ∈ s → b ≤ s.age t) (hcb : c ≤ b) :
    c + 1 ≤ (s.access t).age u := by
  have hu := (mem_iff_age_lt s u).mp (mem_of_mem_access hne h).1
  rw [age_access s hne h]
  unfold shiftedAge
  split_ifs with hlt
  · by_cases ht : t ∈ s
    · have := hb ht
      omega
    · rw [mem_iff_age_lt] at ht
      omega
  · omega

/-- At most `a + 1` lines are held at positions up to `a`. -/
theorem length_le_of_within {s : CacheSet τ A} {ts : List τ} (hnd : ts.Nodup) {a : ℕ}
    (h : ∀ t ∈ ts, s.Within t a) : ts.length ≤ a + 1 := by
  have hages : (ts.map s.age).Nodup := by
    apply hnd.map_on
    intro t ht u _ he
    exact age_injective (h t ht).1 he
  have hsub : (ts.map s.age).Subperm (List.range (a + 1)) := by
    apply List.subperm_of_subset hages
    intro i hi
    obtain ⟨t, ht, rfl⟩ := List.mem_map.mp hi
    exact List.mem_range.mpr (Nat.lt_succ_iff.mpr (h t ht).2)
  simpa using hsub.length_le

omit [DecidableEq τ] in
/-- A set that holds `A` given lines holds no other. -/
theorem notMem_of_full {s : CacheSet τ A} {ts : List τ} (hnd : ts.Nodup)
    (hlen : A ≤ ts.length) (hmem : ∀ t ∈ ts, t ∈ s) {u : τ} (hu : u ∉ ts) : u ∉ s := by
  intro hus
  have hsub : (u :: ts).Subperm s.lines := by
    refine List.subperm_of_subset (List.nodup_cons.mpr ⟨hu, hnd⟩) ?_
    intro x hx
    rcases List.mem_cons.mp hx with rfl | hx
    · exact hus
    · exact hmem x hx
  have := hsub.length_le
  have := s.length_le
  simp only [List.length_cons] at *
  omega

theorem lines_access_of_notMem {s : CacheSet τ A} {t : τ} (h : t ∉ s) :
    (s.access t).lines = (t :: s.lines).take A := by
  change (t :: s.lines.erase t).take A = _
  rw [List.erase_of_not_mem h]

/-- Accesses to new lines push the lines of the set back. -/
theorem lines_foldl_access {s : CacheSet τ A} {ts : List τ} (hnd : ts.Nodup)
    (hnew : ∀ t ∈ ts, t ∉ s) :
    (ts.foldl access s).lines = (ts.reverse ++ s.lines).take A := by
  induction ts generalizing s with
  | nil => exact (List.take_of_length_le s.length_le).symm
  | cons t ts ih =>
    obtain ⟨ht, hnd⟩ := List.nodup_cons.mp hnd
    have hlines := lines_access_of_notMem (hnew t List.mem_cons_self)
    have hnew' : ∀ u ∈ ts, u ∉ s.access t := by
      intro u hu hmem
      have hne : u ≠ t := fun h => ht (h ▸ hu)
      exact hnew u (List.mem_cons_of_mem t hu) (mem_of_mem_access hne hmem).1
    rw [List.foldl_cons, ih hnd hnew', hlines, List.reverse_cons, List.append_assoc,
      List.singleton_append, List.take_append, List.take_append, List.take_take, min_eq_left]
    exact Nat.sub_le A _

/-- As many new lines as there are ways leave no other line in the set. -/
theorem notMem_foldl_access {s : CacheSet τ A} {ts : List τ} (hnd : ts.Nodup)
    (hnew : ∀ t ∈ ts, t ∉ s) (hlen : A ≤ ts.length) {u : τ} (hu : u ∉ ts) :
    u ∉ ts.foldl access s := by
  intro hmem
  rw [mem_def, lines_foldl_access hnd hnew, List.take_append_of_le_length (by simpa using hlen)]
    at hmem
  exact hu (List.mem_reverse.mp (List.mem_of_mem_take hmem))

end CacheSet

end Lru
