import Llvmta.Library.LruInterference
import Llvmta.Library.LruPath

/-!
# What a disturbance costs a least-recently-used set

A disturbance leaves some other set behind. Of the accesses after it, two sets disagree only on
the first one to each line: where a line is held afterwards depends on the accesses since then
alone. So the disturbed set has at most one more miss for each line whose first access would
have been a hit. Such a line is useful: it is held at the disturbance, and also by the set that
makes the later accesses in the reverse order.
-/

namespace Lru

variable {τ : Type*} [DecidableEq τ]

namespace CacheSet

variable {A : ℕ} {s s' : CacheSet τ A} {F : Finset τ} {t u : τ}

/-- The set after accesses in the order of time. -/
def after (s : CacheSet τ A) (π : List τ) : CacheSet τ A := π.foldl access s

@[simp] theorem after_nil (s : CacheSet τ A) : s.after [] = s := rfl

@[simp] theorem after_cons (s : CacheSet τ A) (t : τ) (π : List τ) :
    s.after (t :: π) = (s.access t).after π := rfl

theorem after_append (s : CacheSet τ A) (π ρ : List τ) :
    s.after (π ++ ρ) = (s.after π).after ρ := List.foldl_append

/-- The number of accesses that miss. -/
def misses : CacheSet τ A → List τ → ℕ
  | _, [] => 0
  | s, t :: π => (if t ∈ s then 0 else 1) + misses (s.access t) π

/-- The lines outside `F` whose first access is a hit. -/
def firstHits : Finset τ → CacheSet τ A → List τ → Finset τ
  | _, _, [] => ∅
  | F, s, t :: π =>
    if t ∉ F ∧ t ∈ s then insert t (firstHits (insert t F) (s.access t) π)
    else firstHits (insert t F) (s.access t) π

/-- The lines that are used again before they are evicted. -/
def useful (s : CacheSet τ A) (π : List τ) : Finset τ := firstHits ∅ s π

/-- The sets hold the same lines of `F`, behind the same lines. -/
structure SameOn (F : Finset τ) (s s' : CacheSet τ A) : Prop where
  mem : ∀ t ∈ F, t ∈ s ↔ t ∈ s'
  younger : ∀ t ∈ F, t ∈ s → s.younger t = s'.younger t

theorem sameOn_empty (s s' : CacheSet τ A) : SameOn ∅ s s' := by
  constructor <;> simp

/-- An access makes two sets agree on its line. -/
theorem SameOn.access (h : SameOn F s s') (t : τ) :
    SameOn (insert t F) (s.access t) (s'.access t) := by
  rcases Nat.eq_zero_or_pos A with rfl | hA
  · have hnone (s : CacheSet τ 0) (u : τ) : u ∉ s := fun hu => absurd (age_lt_ways hu) (by omega)
    constructor
    · simp [hnone]
    · exact fun u _ hu => absurd hu (hnone _ u)
  · have hother : ∀ u ∈ insert t F, u ≠ t → (u ∈ s ↔ u ∈ s') ∧
        (u ∈ s → s.younger u = s'.younger u) := by
      intro u hu hne
      have huF := Finset.mem_of_mem_insert_of_ne hu hne
      exact ⟨h.mem u huF, h.younger u huF⟩
    have hmem : ∀ u ∈ insert t F, u ∈ s.access t ↔ u ∈ s'.access t := by
      intro u hu
      by_cases hne : u = t
      · subst hne
        simp [mem_access_self, hA]
      · obtain ⟨hiff, hyounger⟩ := hother u hu hne
        rw [mem_access_iff s hne, mem_access_iff s' hne, ← hiff]
        apply and_congr_right
        intro hus
        rw [shiftedAge_eq_card hus, shiftedAge_eq_card (hiff.mp hus), hyounger hus]
    constructor
    · exact hmem
    · intro u hu hus
      by_cases hne : u = t
      · subst hne
        have hfront (s : CacheSet τ A) : (s.access u).younger u = ∅ :=
          Finset.subset_empty.mp (behind_access_self s u hA ∅).2
        rw [hfront, hfront]
      · have hyounger := (hother u hu hne).2 (mem_of_mem_access hne hus).1
        rw [younger_access hne hus, younger_access hne ((hmem u hu).mp hus), hyounger]

/-- Lines that have been accessed before are no first hits. -/
theorem notMem_of_mem_firstHits {π : List τ} (h : u ∈ firstHits F s π) : u ∉ F := by
  induction π generalizing F s with
  | nil => simp [firstHits] at h
  | cons t π ih =>
    have hrest (hu : u ∈ firstHits (insert t F) (s.access t) π) : u ∉ F := fun huF =>
      ih hu (Finset.mem_insert_of_mem huF)
    rw [firstHits] at h
    split_ifs at h with ht
    · rcases Finset.mem_insert.mp h with rfl | h
      · exact ht.1
      · exact hrest h
    · exact hrest h

/-- The disturbed set `s'` has at most one more miss for each first hit of the set `s`. -/
theorem misses_le_of_sameOn (h : SameOn F s s') (π : List τ) :
    s'.misses π ≤ s.misses π + (firstHits F s π).card := by
  induction π generalizing F s s' with
  | nil => simp [misses]
  | cons t π ih =>
    have hrest := ih (h.access t)
    have hnot : t ∉ firstHits (insert t F) (s.access t) π := fun ht =>
      notMem_of_mem_firstHits ht (Finset.mem_insert_self t F)
    rw [misses, misses, firstHits]
    by_cases htF : t ∈ F
    · have hnew : ¬(t ∉ F ∧ t ∈ s) := fun ht => ht.1 htF
      rw [if_neg hnew]
      simp only [h.mem t htF]
      omega
    · by_cases hts : t ∈ s
      · have hnew : t ∉ F ∧ t ∈ s := ⟨htF, hts⟩
        rw [if_pos hnew, Finset.card_insert_of_notMem hnot]
        split_ifs <;> omega
      · have hnew : ¬(t ∉ F ∧ t ∈ s) := fun ht => hts ht.2
        rw [if_neg hnew, if_neg hts]
        split_ifs <;> omega

/-- A disturbance costs at most one miss for each useful line. -/
theorem misses_le_add_useful (s s' : CacheSet τ A) (π : List τ) :
    s'.misses π ≤ s.misses π + (s.useful π).card :=
  misses_le_of_sameOn (sameOn_empty s s') π

/-- A first hit, with the accesses in front of it. -/
theorem exists_of_mem_firstHits {π : List τ} (h : u ∈ firstHits F s π) :
    ∃ before later, π = before ++ u :: later ∧ u ∉ before ∧ u ∈ s.after before := by
  induction π generalizing F s with
  | nil => simp [firstHits] at h
  | cons t π ih =>
    have hrest (hu : u ∈ firstHits (insert t F) (s.access t) π) :
        ∃ before later, t :: π = before ++ u :: later ∧ u ∉ before ∧ u ∈ s.after before := by
      obtain ⟨before, later, rfl, hbefore, hmem⟩ := ih hu
      have hne : u ≠ t := by
        rintro rfl
        exact notMem_of_mem_firstHits hu (Finset.mem_insert_self u F)
      exact ⟨t :: before, later, rfl, by simp [hne, hbefore], hmem⟩
    rw [firstHits] at h
    split_ifs at h with ht
    · rcases Finset.mem_insert.mp h with rfl | h
      · exact ⟨[], π, rfl, List.not_mem_nil, ht.2⟩
      · exact hrest h
    · exact hrest h

/-- A line that is held without being accessed was held before, and the lines accessed since
then are in front of it. -/
theorem mem_of_mem_after {π : List τ} (hu : u ∉ π) (h : u ∈ s.after π) :
    u ∈ s ∧ π.toFinset ⊆ (s.after π).younger u := by
  induction π using List.reverseRecOn with
  | nil => exact ⟨h, by simp⟩
  | append_singleton π t ih =>
    rw [List.mem_append, List.mem_singleton, not_or] at hu
    rw [after_append] at h ⊢
    simp only [after_cons, after_nil] at h ⊢
    obtain ⟨hus, hyounger⟩ := ih hu.1 (mem_of_mem_access hu.2 h).1
    refine ⟨hus, ?_⟩
    rw [younger_access hu.2 h, List.toFinset_append]
    intro v hv
    simp only [Finset.mem_union, List.mem_toFinset, List.mem_singleton] at hv
    rcases hv with hv | rfl
    · exact Finset.mem_insert_of_mem (hyounger (List.mem_toFinset.mpr hv))
    · exact Finset.mem_insert_self v _

/-- The accesses in front of a line do not fill the set. -/
theorem card_lt_of_mem_after {π : List τ} (hu : u ∉ π) (h : u ∈ s.after π) :
    π.toFinset.card < A := by
  have hcard := Finset.card_le_card (mem_of_mem_after hu h).2
  rw [card_younger] at hcard
  exact hcard.trans_lt (age_lt_ways h)

/-- A useful line is held at the disturbance. -/
theorem mem_of_mem_useful {π : List τ} (h : u ∈ s.useful π) : u ∈ s := by
  obtain ⟨before, _, _, hbefore, hmem⟩ := exists_of_mem_firstHits h
  exact (mem_of_mem_after hbefore hmem).1

/-- A useful line is held by any set after the later accesses in the reverse order. -/
theorem mem_run_of_mem_useful {π : List τ} (h : u ∈ s.useful π) (s' : CacheSet τ A) :
    u ∈ s'.run π := by
  obtain ⟨before, later, rfl, hbefore, hmem⟩ := exists_of_mem_firstHits h
  have hsince : since (before ++ u :: later) u = before := by
    rw [since_append_of_notMem hbefore, since_cons_self, List.append_nil]
  have hrecency : recency (before ++ u :: later) u < A := by
    rw [recency, hsince]
    exact card_lt_of_mem_after hbefore hmem
  exact (within_run s' (by simp) hrecency).1

/-- `run` makes the accesses of a path in the reverse order. -/
theorem run_eq_after (s : CacheSet τ A) (π : List τ) : s.run π = s.after π.reverse := by
  rw [run, after, List.foldl_reverse]

theorem foreign_after {π : List τ} (h : ∀ t ∈ π, t ∈ F) (s : CacheSet τ A) :
    Foreign F s (s.after π) := by
  induction π generalizing s with
  | nil => exact Relation.ReflTransGen.refl
  | cons t π ih =>
    have hstep : Foreign F s (s.access t) :=
      Relation.ReflTransGen.single ⟨t, h t List.mem_cons_self, rfl⟩
    exact hstep.trans (ih (fun u hu => h u (List.mem_cons_of_mem t hu)) (s.access t))

/-- A line survives accesses to the lines of `F` if they and the lines in front of it leave a
way, and it ages by one way for each of them at most. -/
theorem Within.after {π : List τ} {a : ℕ} (h : s.Within u a) (hπ : ∀ t ∈ π, t ∈ F)
    (hcard : a + F.card < A) : (s.after π).Within u (a + F.card) := by
  have hF : (F.erase u).card ≤ F.card := Finset.card_le_card (Finset.erase_subset u F)
  have hage := h.2
  have hbehind := ((Interleaved.start s).trans_foreign (foreign_after hπ s)).behind h.1 (by omega)
  apply hbehind.within
  calc (s.younger u ∪ F.erase u).card
      ≤ (s.younger u).card + (F.erase u).card := Finset.card_union_le _ _
    _ ≤ a + F.card := by
        rw [card_younger]
        omega

/-! ### Marked accesses -/

/-- The number of marked accesses that miss. -/
def markedMisses : CacheSet τ A → List (τ × Bool) → ℕ
  | _, [] => 0
  | s, (t, marked) :: π => (if marked ∧ t ∉ s then 1 else 0) + markedMisses (s.access t) π

/-- The lines outside `F` whose first access is marked. -/
def firstMarked : Finset τ → List (τ × Bool) → Finset τ
  | _, [] => ∅
  | F, (t, marked) :: π =>
    if t ∉ F ∧ marked then insert t (firstMarked (insert t F) π) else firstMarked (insert t F) π

theorem notMem_of_mem_firstMarked {π : List (τ × Bool)} (h : u ∈ firstMarked F π) : u ∉ F := by
  induction π generalizing F with
  | nil => simp [firstMarked] at h
  | cons access π ih =>
    obtain ⟨t, marked⟩ := access
    have hrest (hu : u ∈ firstMarked (insert t F) π) : u ∉ F := fun huF =>
      ih hu (Finset.mem_insert_of_mem huF)
    rw [firstMarked] at h
    split_ifs at h with ht
    · rcases Finset.mem_insert.mp h with rfl | h
      · exact ht.1
      · exact hrest h
    · exact hrest h

/-- If the marked accesses of `s` hit, the disturbed set `s'` has at most one miss for each line
whose first access is marked. -/
theorem markedMisses_le_of_sameOn (h : SameOn F s s') {π : List (τ × Bool)}
    (hhit : s.markedMisses π = 0) : s'.markedMisses π ≤ (firstMarked F π).card := by
  induction π generalizing F s s' with
  | nil => simp [markedMisses]
  | cons access π ih =>
    obtain ⟨t, marked⟩ := access
    rw [markedMisses, Nat.add_eq_zero_iff] at hhit
    have hrest := ih (h.access t) hhit.2
    have hnot : t ∉ firstMarked (insert t F) π := fun ht =>
      notMem_of_mem_firstMarked ht (Finset.mem_insert_self t F)
    have hmem : marked = true → t ∈ s := by
      intro hmarked
      by_contra hts
      simp [hmarked, hts] at hhit
    rw [markedMisses, firstMarked]
    cases marked with
    | false =>
      simp only [Bool.false_eq_true, false_and, and_false, if_false]
      omega
    | true =>
      by_cases htF : t ∈ F
      · have hts' := (h.mem t htF).mp (hmem rfl)
        simp only [htF, hts', not_true_eq_false, false_and, and_false, if_false]
        omega
      · have hnew : t ∉ F ∧ true = true := ⟨htF, rfl⟩
        rw [if_pos hnew, Finset.card_insert_of_notMem hnot]
        split_ifs <;> omega

/-- First accesses that are marked and hit are first hits. -/
theorem firstMarked_subset_firstHits {π : List (τ × Bool)} (hhit : s.markedMisses π = 0) :
    firstMarked F π ⊆ firstHits F s (π.map Prod.fst) := by
  induction π generalizing F s with
  | nil => simp [firstMarked]
  | cons access π ih =>
    obtain ⟨t, marked⟩ := access
    rw [markedMisses, Nat.add_eq_zero_iff] at hhit
    have hrest := ih (F := insert t F) hhit.2
    rw [List.map_cons, firstMarked, firstHits]
    split_ifs with hmarked hnew
    · exact Finset.insert_subset_insert t hrest
    · have hts : t ∈ s := by
        by_contra hts
        simp [hmarked.2, hts] at hhit
      exact absurd ⟨hmarked.1, hts⟩ hnew
    · exact hrest.trans (Finset.subset_insert t _)
    · exact hrest

end CacheSet

/-! ## Caches of several sets -/

section Cache

variable {α ι : Type*} [DecidableEq ι] {A : ℕ} (index : α → ι) (tag : α → τ)

/-- An access to the set that an address is mapped to. -/
def cacheAccess (c : ι → CacheSet τ A) (a : α) : ι → CacheSet τ A :=
  Function.update c (index a) ((c (index a)).access (tag a))

/-- The number of accesses to a cache that miss. -/
def cacheMisses : (ι → CacheSet τ A) → List α → ℕ
  | _, [] => 0
  | c, a :: as =>
    (if tag a ∈ c (index a) then 0 else 1) + cacheMisses (cacheAccess index tag c a) as

/-- The lines that are accessed in the set `i`. -/
def linesOf (i : ι) (as : List α) : List τ := (as.filter fun a => index a = i).map tag

omit [DecidableEq τ] in
theorem linesOf_cons (i : ι) (a : α) (as : List α) :
    linesOf index tag i (a :: as) =
      if index a = i then tag a :: linesOf index tag i as else linesOf index tag i as := by
  unfold linesOf
  rw [List.filter_cons]
  by_cases h : index a = i <;> simp [h]

/-- The sets do not interfere. -/
theorem foldl_cacheAccess (c : ι → CacheSet τ A) (as : List α) (i : ι) :
    as.foldl (cacheAccess index tag) c i = (c i).after (linesOf index tag i as) := by
  induction as generalizing c with
  | nil => rfl
  | cons a as ih =>
    rw [List.foldl_cons, ih, linesOf_cons]
    by_cases h : index a = i
    · subst h
      simp [cacheAccess]
    · rw [if_neg h, cacheAccess, Function.update_of_ne (Ne.symm h)]

/-- The misses of a cache are those of its sets. -/
theorem cacheMisses_eq_sum (S : Finset ι) (c : ι → CacheSet τ A) {as : List α}
    (hS : ∀ a ∈ as, index a ∈ S) :
    cacheMisses index tag c as = ∑ i ∈ S, (c i).misses (linesOf index tag i as) := by
  induction as generalizing c with
  | nil => simp [cacheMisses, linesOf, CacheSet.misses]
  | cons a as ih =>
    obtain ⟨ha, has⟩ := List.forall_mem_cons.mp hS
    have hset (i : ι) : (c i).misses (linesOf index tag i (a :: as)) =
        (if i = index a then (if tag a ∈ c (index a) then 0 else 1) else 0) +
          (cacheAccess index tag c a i).misses (linesOf index tag i as) := by
      rw [linesOf_cons]
      by_cases h : index a = i
      · subst h
        simp [CacheSet.misses, cacheAccess]
      · rw [if_neg h, if_neg (Ne.symm h), cacheAccess, Function.update_of_ne (Ne.symm h),
          Nat.zero_add]
    rw [cacheMisses, ih _ has, Finset.sum_congr rfl fun i _ => hset i, Finset.sum_add_distrib,
      Finset.sum_ite_eq', if_pos ha]

/-- The number of marked accesses to a cache that miss. -/
def cacheMarkedMisses : (ι → CacheSet τ A) → List (α × Bool) → ℕ
  | _, [] => 0
  | c, (a, marked) :: as =>
    (if marked ∧ tag a ∉ c (index a) then 1 else 0) +
      cacheMarkedMisses (cacheAccess index tag c a) as

/-- The lines that are accessed in the set `i`, with the marks of the accesses. -/
def markedLines (i : ι) (as : List (α × Bool)) : List (τ × Bool) :=
  (as.filter fun a => index a.1 = i).map fun a => (tag a.1, a.2)

omit [DecidableEq τ] in
theorem markedLines_cons (i : ι) (a : α × Bool) (as : List (α × Bool)) :
    markedLines index tag i (a :: as) =
      if index a.1 = i then (tag a.1, a.2) :: markedLines index tag i as
      else markedLines index tag i as := by
  unfold markedLines
  rw [List.filter_cons]
  by_cases h : index a.1 = i <;> simp [h]

omit [DecidableEq τ] in
theorem map_fst_markedLines (i : ι) (as : List (α × Bool)) :
    (markedLines index tag i as).map Prod.fst = linesOf index tag i (as.map Prod.fst) := by
  unfold markedLines linesOf
  rw [List.filter_map, List.map_map, List.map_map]
  rfl

/-- The marked misses of a cache are those of its sets. -/
theorem cacheMarkedMisses_eq_sum (S : Finset ι) (c : ι → CacheSet τ A) {as : List (α × Bool)}
    (hS : ∀ a ∈ as, index a.1 ∈ S) :
    cacheMarkedMisses index tag c as =
      ∑ i ∈ S, (c i).markedMisses (markedLines index tag i as) := by
  induction as generalizing c with
  | nil => simp [cacheMarkedMisses, markedLines, CacheSet.markedMisses]
  | cons a as ih =>
    obtain ⟨ha, has⟩ := List.forall_mem_cons.mp hS
    have hset (i : ι) : (c i).markedMisses (markedLines index tag i (a :: as)) =
        (if i = index a.1 then (if a.2 ∧ tag a.1 ∉ c (index a.1) then 1 else 0) else 0) +
          (cacheAccess index tag c a.1 i).markedMisses (markedLines index tag i as) := by
      rw [markedLines_cons]
      by_cases h : index a.1 = i
      · subst h
        simp [CacheSet.markedMisses, cacheAccess]
      · rw [if_neg h, if_neg (Ne.symm h), cacheAccess, Function.update_of_ne (Ne.symm h),
          Nat.zero_add]
    rw [cacheMarkedMisses, ih _ has, Finset.sum_congr rfl fun i _ => hset i,
      Finset.sum_add_distrib, Finset.sum_ite_eq', if_pos ha]

theorem cacheMarkedMisses_append (c : ι → CacheSet τ A) (as bs : List (α × Bool)) :
    cacheMarkedMisses index tag c (as ++ bs) = cacheMarkedMisses index tag c as +
      cacheMarkedMisses index tag ((as.map Prod.fst).foldl (cacheAccess index tag) c) bs := by
  induction as generalizing c with
  | nil => simp [cacheMarkedMisses]
  | cons a as ih =>
    rw [List.cons_append, cacheMarkedMisses, cacheMarkedMisses, ih, List.map_cons, List.foldl_cons,
      Nat.add_assoc]

theorem cacheMisses_le_cacheMarkedMisses (c : ι → CacheSet τ A) (as : List (α × Bool)) :
    cacheMisses index tag c (as.map Prod.fst) ≤
      cacheMarkedMisses index tag c as + as.countP fun a => !a.2 := by
  induction as generalizing c with
  | nil => simp [cacheMisses]
  | cons a as ih =>
    obtain ⟨a, marked⟩ := a
    have hrest := ih (cacheAccess index tag c a)
    rw [List.map_cons, cacheMisses, cacheMarkedMisses, List.countP_cons]
    cases marked <;> by_cases ha : tag a ∈ c (index a) <;> simp [ha] <;> omega

/-- The line `t` of the set `i` is accessed, and its first access is marked. -/
def FirstMarked (i : ι) (t : τ) (as : List (α × Bool)) : Prop :=
  ∃ before a later, as = before ++ (a, true) :: later ∧ (index a = i ∧ tag a = t) ∧
    ∀ b ∈ before, ¬(index b.1 = i ∧ tag b.1 = t)

theorem firstMarked_of_mem {F : Finset τ} {i : ι} {t : τ} {as : List (α × Bool)}
    (h : t ∈ CacheSet.firstMarked F (markedLines index tag i as)) :
    FirstMarked index tag i t as := by
  induction as generalizing F with
  | nil => simp [markedLines, CacheSet.firstMarked] at h
  | cons a as ih =>
    have hskip {F' : Finset τ} (hne : ¬(index a.1 = i ∧ tag a.1 = t))
        (ht : t ∈ CacheSet.firstMarked F' (markedLines index tag i as)) :
        FirstMarked index tag i t (a :: as) := by
      obtain ⟨before, b, later, rfl, hb, hbefore⟩ := ih ht
      exact ⟨a :: before, b, later, rfl, hb, List.forall_mem_cons.mpr ⟨hne, hbefore⟩⟩
    rw [markedLines_cons] at h
    by_cases hindex : index a.1 = i
    · rw [if_pos hindex, CacheSet.firstMarked] at h
      have hother (ht : t ∈ CacheSet.firstMarked (insert (tag a.1) F) (markedLines index tag i as)) :
          FirstMarked index tag i t (a :: as) := by
        refine hskip (fun heq => ?_) ht
        exact CacheSet.notMem_of_mem_firstMarked ht (heq.2 ▸ Finset.mem_insert_self _ F)
      split_ifs at h with hmarked
      · rcases Finset.mem_insert.mp h with rfl | h
        · refine ⟨[], a.1, as, ?_, ⟨hindex, rfl⟩, by simp⟩
          rw [List.nil_append, ← hmarked.2]
        · exact hother h
      · exact hother h
    · rw [if_neg hindex] at h
      exact hskip (fun heq => hindex heq.1) h

omit [DecidableEq τ] [DecidableEq ι] in
theorem FirstMarked.append {i : ι} {t : τ} {as bs : List (α × Bool)}
    (h : FirstMarked index tag i t (as ++ bs)) : FirstMarked index tag i t as ∨
      (∀ a ∈ as, ¬(index a.1 = i ∧ tag a.1 = t)) ∧ FirstMarked index tag i t bs := by
  induction as with
  | nil => exact .inr ⟨by simp, h⟩
  | cons a as ih =>
    obtain ⟨before, b, later, heq, hb, hbefore⟩ := h
    cases before with
    | nil =>
      obtain ⟨rfl, rfl⟩ := List.cons.inj heq
      exact .inl ⟨[], b, as, rfl, hb, by simp⟩
    | cons c before =>
      obtain ⟨rfl, hrest⟩ := List.cons.inj heq
      obtain ⟨ha, hbefore⟩ := List.forall_mem_cons.mp hbefore
      rcases ih ⟨before, b, later, hrest, hb, hbefore⟩ with hleft | ⟨hnone, hright⟩
      · obtain ⟨before', b', later', rfl, hb', hbefore'⟩ := hleft
        exact .inl ⟨a :: before', b', later', rfl, hb', List.forall_mem_cons.mpr ⟨ha, hbefore'⟩⟩
      · exact .inr ⟨List.forall_mem_cons.mpr ⟨ha, hnone⟩, hright⟩

end Cache

end Lru
