import Mathlib.Data.Finset.Card
import Mathlib.Algebra.Order.BigOperators.Group.List
import Mathlib.Tactic

/-!
# Uses between entries

A sequence of entries and uses in which each use is allowed after the uses since the last
entry, and none comes before the first entry. If the uses since an entry are worth at most
`c`, whichever of them are allowed, then all uses are worth at most `c` for each entry.
-/

namespace PerEntry

variable {α : Type*}

inductive Use (α : Type*) where
  | entry
  | use (a : α)
  deriving DecidableEq

/-- Each use is allowed after those since the last entry, latest first, if there has been one. -/
def Allowed (allowed : List α → α → Prop) : Option (List α) → List (Use α) → Prop
  | _, [] => True
  | _, .entry :: l => Allowed allowed (some []) l
  | none, .use _ :: _ => False
  | some done, .use a :: l => allowed done a ∧ Allowed allowed (some (a :: done)) l

/-- The uses since an entry. -/
inductive Since (allowed : List α → α → Prop) : List α → Prop
  | entry : Since allowed []
  | use {done : List α} {a : α} : Since allowed done → allowed done a → Since allowed (a :: done)

instance decidableAllowed (allowed : List α → α → Prop) [∀ done a, Decidable (allowed done a)] :
    (done : Option (List α)) → (l : List (Use α)) → Decidable (Allowed allowed done l)
  | _, [] => .isTrue trivial
  | none, .entry :: l => decidableAllowed allowed (some []) l
  | some _, .entry :: l => decidableAllowed allowed (some []) l
  | none, .use _ :: _ => .isFalse id
  | some done, .use a :: l =>
    have := decidableAllowed allowed (some (a :: done)) l
    inferInstanceAs (Decidable (allowed done a ∧ Allowed allowed (some (a :: done)) l))

/-- The number of entries. -/
def entries : List (Use α) → ℕ
  | [] => 0
  | .entry :: l => entries l + 1
  | .use _ :: l => entries l

/-- The worth of all uses. -/
def worth (f : α → ℤ) : List (Use α) → ℤ
  | [] => 0
  | .entry :: l => worth f l
  | .use a :: l => f a + worth f l

variable {allowed : List α → α → Prop} {f : α → ℤ} {c : ℤ} {l l' : List (Use α)} {a : α}

@[simp] theorem entries_entry : entries (.entry :: l) = entries l + 1 := rfl

@[simp] theorem entries_use : entries (.use a :: l) = entries l := rfl

@[simp] theorem worth_entry : worth f (.entry :: l) = worth f l := rfl

@[simp] theorem worth_use : worth f (.use a :: l) = f a + worth f l := rfl

theorem entries_append : entries (l ++ l') = entries l + entries l' := by
  induction l with
  | nil => exact (Nat.zero_add _).symm
  | cons x l ih =>
    cases x with
    | entry =>
      simp only [List.cons_append, entries, ih]
      omega
    | use a => exact ih

theorem worth_append : worth f (l ++ l') = worth f l + worth f l' := by
  induction l with
  | nil => exact (zero_add _).symm
  | cons x l ih =>
    cases x with
    | entry => exact ih
    | use a => simp only [List.cons_append, worth, ih, add_assoc]

theorem worth_neg : worth (fun a => -f a) l = -worth f l := by
  induction l with
  | nil => exact neg_zero.symm
  | cons x l ih =>
    cases x with
    | entry => exact ih
    | use a => rw [worth_use, worth_use, ih, neg_add]

/-- What an event is worth, if it is one: `c` for an entry. -/
def eventWorth (c : ℤ) (f : α → ℤ) : Option (Use α) → ℤ
  | none => 0
  | some .entry => c
  | some (.use a) => f a

/-- The events of a sequence are worth what their entries and uses are. -/
theorem sum_eventWorth {β : Type*} (u : β → Option (Use α)) (path : List β) :
    (path.map fun b => eventWorth c f (u b)).sum =
      c * entries (path.filterMap u) + worth f (path.filterMap u) := by
  induction path with
  | nil => simp [entries, worth]
  | cons b path ih =>
    rw [List.map_cons, List.sum_cons, ih]
    cases hu : u b with
    | none =>
      rw [List.filterMap_cons_none hu]
      exact zero_add _
    | some event =>
      rw [List.filterMap_cons_some hu]
      cases event with
      | entry =>
        rw [entries_entry, worth_entry, eventWorth]
        push_cast
        ring
      | use a =>
        rw [entries_use, worth_use, eventWorth]
        ring

/-- With the uses since the last entry the later ones are worth at most `c` for each entry. -/
theorem worth_since_le (hc : ∀ done, Since allowed done → (done.map f).sum ≤ c) {done : List α}
    (hdone : Since allowed done) (h : Allowed allowed (some done) l) :
    (done.map f).sum + worth f l ≤ c * (entries l + 1) := by
  induction l generalizing done with
  | nil =>
    have hle := hc done hdone
    simpa [worth, entries] using hle
  | cons x l ih =>
    cases x with
    | entry =>
      have hle := hc done hdone
      have hrest : (([] : List α).map f).sum + worth f l ≤ c * (entries l + 1) := ih .entry h
      rw [List.map_nil, List.sum_nil, zero_add] at hrest
      rw [worth, entries]
      push_cast
      linarith
    | use a =>
      have hrest := ih (hdone.use h.1) h.2
      rw [List.map_cons, List.sum_cons] at hrest
      rw [worth, entries]
      linarith

/-- Each entry allows for uses that are worth at most `c`. -/
theorem worth_le (hc : ∀ done, Since allowed done → (done.map f).sum ≤ c)
    (h : Allowed allowed none l) : worth f l ≤ c * entries l := by
  induction l with
  | nil => simp [worth, entries]
  | cons x l ih =>
    cases x with
    | entry =>
      have hrest : (([] : List α).map f).sum + worth f l ≤ c * (entries l + 1) :=
        worth_since_le hc .entry h
      rw [List.map_nil, List.sum_nil, zero_add] at hrest
      rw [worth, entries]
      push_cast
      exact hrest
    | use a => exact absurd h id

section Once

variable [DecidableEq α] {s : Finset α}

/-- No element is used twice. -/
def Once (done : List α) (a : α) : Prop := a ∉ done

instance (done : List α) (a : α) : Decidable (Once done a) :=
  inferInstanceAs (Decidable (a ∉ done))

omit [DecidableEq α] in
theorem Since.nodup {done : List α} (h : Since Once done) : done.Nodup := by
  induction h with
  | entry => exact List.nodup_nil
  | use _ hfresh ih => exact List.nodup_cons.mpr ⟨hfresh, ih⟩

theorem sum_indicator (done : List α) :
    (done.map fun a => if a ∈ s then (1 : ℤ) else 0).sum = (done.filter (· ∈ s)).length := by
  induction done with
  | nil => rfl
  | cons a done ih =>
    rw [List.map_cons, List.sum_cons, ih, List.filter_cons]
    by_cases ha : a ∈ s
    · simp [ha, add_comm]
    · simp [ha]

/-- The elements of a set are used at most as often as it has elements for each entry. -/
theorem worth_once_le (h : Allowed Once none l) :
    worth (fun a => if a ∈ s then 1 else 0) l ≤ s.card * entries l := by
  apply worth_le _ h
  intro done hdone
  rw [sum_indicator]
  have hnodup : (done.filter (· ∈ s)).Nodup := hdone.nodup.filter _
  rw [← List.toFinset_card_of_nodup hnodup]
  have hsubset : (done.filter (· ∈ s)).toFinset ⊆ s := by
    intro a ha
    simpa using (List.mem_filter.mp (List.mem_toFinset.mp ha)).2
  exact_mod_cast Finset.card_le_card hsubset

end Once

section Loops

variable {bound peel : ℕ}

/-- At most `bound` uses. -/
def AtMost (bound : ℕ) (done : List α) (_ : α) : Prop := done.length < bound

instance (bound : ℕ) (done : List α) (a : α) : Decidable (AtMost bound done a) :=
  inferInstanceAs (Decidable (_ < _))

theorem Since.length_le {done : List α} (h : Since (AtMost bound) done) : done.length ≤ bound := by
  induction h with
  | entry => exact Nat.zero_le _
  | use _ hlt _ => exact hlt

/-- At most `bound` uses for each entry. -/
theorem worth_atMost_le (h : Allowed (AtMost bound) none l) :
    worth (fun _ => 1) l ≤ bound * entries l := by
  apply worth_le _ h
  intro done hdone
  simpa using hdone.length_le

/-- The iterations of a loop, of which the first `peel` are told apart: each of these is left
once, and none before the iteration before it. -/
def InOrder (bound peel : ℕ) (done : List ℕ) (i : ℕ) : Prop :=
  done.length < bound ∧ (i < peel → i ∉ done) ∧ (i ≠ 0 → i - 1 ∈ done)

instance (bound peel : ℕ) (done : List ℕ) (i : ℕ) : Decidable (InOrder bound peel done i) :=
  inferInstanceAs (Decidable (_ ∧ _))

variable {done : List ℕ} {i : ℕ}

theorem Since.inOrder_length_le (h : Since (InOrder bound peel) done) : done.length ≤ bound := by
  induction h with
  | entry => exact Nat.zero_le _
  | use _ hallowed _ => exact hallowed.1

theorem Since.mem_of_lt (h : Since (InOrder bound peel) done) (hi : i ∈ done) {j : ℕ} (hj : j < i) :
    j ∈ done := by
  induction h generalizing i with
  | entry => exact absurd hi List.not_mem_nil
  | @use done a _ hallowed ih =>
    rcases List.mem_cons.mp hi with rfl | hi
    · have hpred : i - 1 ∈ done := hallowed.2.2 (by omega)
      rcases Nat.lt_or_ge j (i - 1) with hlt | hge
      · exact List.mem_cons_of_mem _ (ih hpred hlt)
      · have heq : j = i - 1 := by omega
        exact List.mem_cons_of_mem _ (heq ▸ hpred)
    · exact List.mem_cons_of_mem _ (ih hi hj)

theorem Since.count_le_one (h : Since (InOrder bound peel) done) (hi : i < peel) :
    done.count i ≤ 1 := by
  induction h with
  | entry => exact Nat.zero_le _
  | @use done a _ hallowed ih =>
    rw [List.count_cons]
    split_ifs with ha
    · have heq : a = i := beq_iff_eq.mp ha
      subst heq
      have hzero : done.count a = 0 := List.count_eq_zero.mpr (hallowed.2.1 hi)
      omega
    · exact ih

/-- A peeled iteration is left at most as often as the one before it. -/
theorem Since.count_succ_le (h : Since (InOrder bound peel) done) (hi : i + 1 < peel) :
    done.count (i + 1) ≤ done.count i := by
  by_cases hmem : i + 1 ∈ done
  · have hone := h.count_le_one hi
    have hpos : 0 < done.count i := List.count_pos_iff.mpr (h.mem_of_lt hmem (Nat.lt_succ_self i))
    omega
  · rw [List.count_eq_zero.mpr hmem]
    exact Nat.zero_le _

/-- The peeled iterations and the later ones are not more than all. -/
theorem Since.count_last_le (h : Since (InOrder bound (peel + 1)) done)
    (hlast : peel + 1 ∈ done) : done.count (peel + 1) + (peel + 1) ≤ bound := by
  have hsub : (List.range (peel + 1) ++ List.replicate (done.count (peel + 1)) (peel + 1)).Subperm
      done := by
    rw [List.subperm_ext_iff]
    intro i _
    rw [List.count_append, List.count_replicate]
    by_cases hi : i = peel + 1
    · subst hi
      simp [List.count_eq_zero.mpr (List.not_mem_range_self)]
    · have hne : ¬(peel + 1 == i) = true := by simpa using Ne.symm hi
      rw [if_neg hne, Nat.add_zero]
      by_cases hlt : i < peel + 1
      · rw [List.count_eq_one_of_mem List.nodup_range (List.mem_range.mpr hlt)]
        exact List.count_pos_iff.mpr (h.mem_of_lt hlast hlt)
      · rw [List.count_eq_zero.mpr (by simpa using hlt)]
        exact Nat.zero_le _
  have hle := hsub.length_le
  have hbound := h.inOrder_length_le
  rw [List.length_append, List.length_range, List.length_replicate] at hle
  omega

theorem sum_count (done : List ℕ) (g : ℕ → ℤ) (i : ℕ) :
    (done.map fun j => if j = i then g j else 0).sum = done.count i * g i := by
  induction done with
  | nil => simp
  | cons j done ih =>
    rw [List.map_cons, List.sum_cons, ih, List.count_cons]
    by_cases hj : j = i
    · simp [hj]
      ring
    · simp [hj]

variable {iterations : List (Use ℕ)}

/-- Over all entries a peeled iteration is left at most as often as the one before it. -/
theorem worth_peeled_le (h : Allowed (InOrder bound peel) none iterations) (hi : i + 1 < peel) :
    worth (fun j => (if j = i + 1 then 1 else 0) + if j = i then -1 else 0) iterations ≤ 0 := by
  have hle := worth_le (f := fun j => (if j = i + 1 then (1 : ℤ) else 0) + if j = i then -1 else 0)
    (c := 0) (fun done hdone => ?_) h
  · rwa [zero_mul] at hle
  · have hcount := hdone.count_succ_le hi
    rw [List.sum_map_add, sum_count done (fun _ => 1), sum_count done (fun _ => -1)]
    omega

/-- Over all entries the iterations after the peeled ones are at most those that are left of
the bound when the last of the peeled ones has been left. -/
theorem worth_last_le (h : Allowed (InOrder bound (peel + 1)) none iterations)
    (hbound : peel < bound) :
    worth (fun j => (if j = peel + 1 then 1 else 0) +
      if j = peel then -((bound - (peel + 1) : ℕ) : ℤ) else 0) iterations ≤ 0 := by
  have hle := worth_le (f := fun j => (if j = peel + 1 then (1 : ℤ) else 0) +
    if j = peel then -((bound - (peel + 1) : ℕ) : ℤ) else 0) (c := 0) (fun done hdone => ?_) h
  · rwa [zero_mul] at hle
  · rw [List.sum_map_add, sum_count done (fun _ => 1),
      sum_count done fun _ => -((bound - (peel + 1) : ℕ) : ℤ)]
    by_cases hlast : peel + 1 ∈ done
    · have hcount := hdone.count_last_le hlast
      have hprev : done.count peel = 1 := by
        have hone := hdone.count_le_one (Nat.lt_succ_self peel)
        have hpos : 0 < done.count peel :=
          List.count_pos_iff.mpr (hdone.mem_of_lt hlast (Nat.lt_succ_self peel))
        omega
      rw [hprev]
      push_cast
      omega
    · rw [List.count_eq_zero.mpr hlast]
      have hnonneg : (0 : ℤ) ≤ done.count peel * ((bound - (peel + 1) : ℕ) : ℤ) := by positivity
      push_cast at hnonneg ⊢
      linarith

end Loops

end PerEntry
