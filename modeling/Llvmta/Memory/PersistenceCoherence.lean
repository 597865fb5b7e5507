import Llvmta.Memory.PersistenceOrder
import Llvmta.Memory.SharedPersistence

/-!
# Coherence of the comparisons

A conflict set is compared by a join, which erases arrays that are counted more often than
their bound and gives up a set of more than `ASSOCIATIVITY` entries. A state is equal to
itself if its conflict sets stand this. An access to a block keeps it up unless it lowers the
bound of an array that is counted that often already, and an access into an array unless there
are `ASSOCIATIVITY` entries.
-/

namespace Llvmta

open Checked

variable {T : CacheTraits} {P : StaticAddressProvider} {mode : ArrayPersistenceAnaType}
  {index : ℕ}

/-! ## Conflict sets -/

namespace SetWiseCountingPersistence

variable {s s' x y u : SetWiseCountingPersistence} {array : GlobalVariable} {b : Block}

theorem getPerArrayBound_eq_ok {bound : ℕ} : s.getPerArrayBound T P array = .ok bound ↔
    (BitVec.ofNat 32 (getPerSetSize T P array)).toInt -
      ∑ b ∈ s.accessedBlocks, (b.surroundingArrays.count array : ℤ) = bound := by
  unfold getPerArrayBound
  dsimp only
  generalize (BitVec.ofNat 32 (getPerSetSize T P array)).toInt -
    ∑ b ∈ s.accessedBlocks, (b.surroundingArrays.count array : ℤ) = n
  by_cases hn : 0 ≤ n
  · simp only [hn, decide_true, assertThat_true, ok_bind, Except.ok.injEq]
    omega
  · constructor
    · intro h
      obtain ⟨_, hassert, _⟩ := bind_eq_ok.mp h
      exact absurd (of_decide_eq_true (of_assertThat hassert)) hn
    · omega

/-- The states that stand a join with themselves. -/
structure Normal (T : CacheTraits) (P : StaticAddressProvider) (mode : ArrayPersistenceAnaType)
    (s : SetWiseCountingPersistence) : Prop where
  cleared : s.top = true → s.accessedBlocks = ∅ ∧ s.accessedArrays = []
  arrays_nil : mode = .none → s.accessedArrays = []
  sorted : s.accessedArrays.Pairwise (· ≤ ·)
  size_le : s.size ≤ T.associativity
  counted : ∀ array ∈ s.accessedArrays, ∃ bound, s.getPerArrayBound T P array = .ok bound ∧
    s.accessedArrays.count array ≤ bound

theorem normal_new (addr : ℕ) : Normal T P mode (new addr) :=
  ⟨fun _ => ⟨rfl, rfl⟩, fun _ => rfl, .nil, Nat.zero_le _, by simp [new]⟩

theorem normal_gotoTop (s : SetWiseCountingPersistence) : Normal T P mode s.gotoTop :=
  ⟨fun _ => ⟨rfl, rfl⟩, fun _ => rfl, .nil, Nat.zero_le _, by simp [gotoTop]⟩

theorem Normal.gotoTop_eq (h : Normal T P mode s) (htop : s.top = true) : s.gotoTop = s := by
  obtain ⟨hblocks, harrays⟩ := h.cleared htop
  obtain ⟨r, top, accessedBlocks, accessedArrays⟩ := s
  dsimp only at htop hblocks harrays
  rw [htop, hblocks, harrays]
  rfl

section HonorBound

variable {bound : GlobalVariable → Except Fault ℕ} {kept rest l : List GlobalVariable}

/-- Nothing is erased if no array is counted more often than its bound. -/
theorem honorBound_of_le
    (h : ∀ a ∈ rest, ∃ n, bound a = .ok n ∧ (kept ++ rest).count a ≤ n) :
    honorBound bound kept rest = .ok (kept ++ rest) := by
  induction rest generalizing kept with
  | nil => simp [honorBound]
  | cons array rest ih =>
    obtain ⟨n, hn, hle⟩ := h array List.mem_cons_self
    rw [honorBound, hn, ok_bind, if_neg (Nat.not_lt.mpr hle), ih, List.append_assoc,
      List.singleton_append]
    intro a ha
    rw [List.append_assoc, List.singleton_append]
    exact h a (List.mem_cons_of_mem array ha)

theorem honorBound_returns (h : ∀ a ∈ rest, ∃ n, bound a = .ok n) :
    ∃ l, honorBound bound kept rest = .ok l := by
  induction rest generalizing kept with
  | nil => exact ⟨kept, rfl⟩
  | cons array rest ih =>
    obtain ⟨n, hn⟩ := h array List.mem_cons_self
    have hrest := fun a ha => h a (List.mem_cons_of_mem array ha)
    rw [honorBound, hn, ok_bind]
    split_ifs
    · exact ih hrest
    · exact ih hrest

/-- No array that is left is counted more often than its bound. -/
theorem honorBound_counted (h : honorBound bound kept rest = .ok l)
    (hkept : ∀ a ∈ kept, ∃ n, bound a = .ok n ∧ (kept ++ rest).count a ≤ n) :
    l.Sublist (kept ++ rest) ∧ ∀ a ∈ l, ∃ n, bound a = .ok n ∧ l.count a ≤ n := by
  induction rest generalizing kept with
  | nil =>
    cases h
    rw [List.append_nil] at hkept ⊢
    exact ⟨.refl _, hkept⟩
  | cons array rest ih =>
    rw [honorBound] at h
    obtain ⟨n, hn, h⟩ := bind_eq_ok.mp h
    split_ifs at h with hexcess
    · have hsub : (kept ++ rest).Sublist (kept ++ array :: rest) :=
        (List.Sublist.refl kept).append (List.sublist_cons_self array rest)
      obtain ⟨hl, hcounted⟩ := ih h fun a ha => by
        obtain ⟨n, hn, hle⟩ := hkept a ha
        exact ⟨n, hn, (hsub.count_le a).trans hle⟩
      exact ⟨hl.trans hsub, hcounted⟩
    · have happend : kept ++ [array] ++ rest = kept ++ array :: rest := by simp
      have hnext := ih h
      rw [happend] at hnext
      apply hnext
      intro a ha
      rcases List.mem_append.mp ha with ha | ha
      · exact hkept a ha
      · obtain rfl := List.mem_singleton.mp ha
        exact ⟨n, hn, Nat.le_of_not_lt hexcess⟩

end HonorBound

/-- The maximum of two multisets, before the bounds are enforced. -/
def mergeArrays (xs ys : List GlobalVariable) : List GlobalVariable :=
  (ys.diff xs).foldl (fun arrays array => arrays.orderedInsert (· ≤ ·) array) xs

theorem count_mergeArrays (xs ys : List GlobalVariable) (a : GlobalVariable) :
    (mergeArrays xs ys).count a = max (xs.count a) (ys.count a) := by
  rw [mergeArrays, count_foldl_orderedInsert, List.count_diff]
  omega

theorem mem_mergeArrays {xs ys : List GlobalVariable} {a : GlobalVariable}
    (h : a ∈ mergeArrays xs ys) : a ∈ xs ∨ a ∈ ys := by
  rw [← List.one_le_count_iff, count_mergeArrays] at h
  rw [← List.one_le_count_iff, ← List.one_le_count_iff]
  omega

theorem pairwise_foldl_orderedInsert {xs ys : List GlobalVariable}
    (h : xs.Pairwise (· ≤ ·)) :
    (ys.foldl (fun arrays array => arrays.orderedInsert (· ≤ ·) array) xs).Pairwise (· ≤ ·) := by
  induction ys generalizing xs with
  | nil => exact h
  | cons y ys ih => exact ih (h.orderedInsert y xs)

/-- Sorted multisets with the same counts are equal. -/
theorem eq_of_count_eq {xs ys : List GlobalVariable} (hxs : xs.Pairwise (· ≤ ·))
    (hys : ys.Pairwise (· ≤ ·)) (h : ∀ a, xs.count a = ys.count a) : xs = ys :=
  (List.perm_iff_count.mpr h).eq_of_pairwise (fun _ _ _ _ => le_antisymm) hxs hys

/-- The join of states that are not top. -/
theorem join_of_not_top (hx : x.top = false) (hy : y.top = false) :
    x.join T P mode y = (do
      let arrays ← ({ x with accessedBlocks := x.accessedBlocks ∪ y.accessedBlocks } :
        SetWiseCountingPersistence).joinArrays T P mode y.accessedArrays
      .ok (checkSize T ⟨x.r, false, x.accessedBlocks ∪ y.accessedBlocks, arrays⟩)) := by
  simp [join, hx, hy]

theorem join_of_top (h : x.top = true ∨ y.top = true) : x.join T P mode y = .ok x.gotoTop := by
  rw [join, if_pos (by simpa using h)]

theorem Normal.join_self (h : Normal T P mode s) : s.join T P mode s = .ok s := by
  cases htop : s.top with
  | true => rw [join_of_top (.inl htop), h.gotoTop_eq htop]
  | false =>
    have harrays : s.joinArrays T P mode s.accessedArrays = .ok s.accessedArrays := by
      cases mode with
      | none => rfl
      | setwise =>
        have hmerge : mergeArrays s.accessedArrays s.accessedArrays = s.accessedArrays :=
          eq_of_count_eq (pairwise_foldl_orderedInsert h.sorted) h.sorted
            fun a => by rw [count_mergeArrays, max_self]
        change honorBound _ [] (mergeArrays _ _) = _
        rw [hmerge, honorBound_of_le h.counted, List.nil_append]
    have hs : (⟨s.r, false, s.accessedBlocks, s.accessedArrays⟩ : SetWiseCountingPersistence) = s :=
      by rw [← htop]
    rw [join_of_not_top htop htop, Finset.union_self, harrays, ok_bind, hs, checkSize,
      if_neg (Nat.not_lt.mpr h.size_le)]

theorem Normal.join (hx : Normal T P mode x) (hu : x.join T P mode y = .ok u) :
    Normal T P mode u := by
  by_cases htop : x.top = true ∨ y.top = true
  · rw [join_of_top htop] at hu
    cases hu
    exact normal_gotoTop x
  · simp only [not_or, Bool.not_eq_true] at htop
    rw [join_of_not_top htop.1 htop.2] at hu
    obtain ⟨arrays, harrays, hu⟩ := bind_eq_ok.mp hu
    cases hu
    unfold checkSize
    split_ifs with hsize
    · exact normal_gotoTop _
    · refine ⟨by simp, fun hmode => ?_, ?_, Nat.le_of_not_lt hsize, ?_⟩
      · subst hmode
        cases harrays
        exact hx.arrays_nil rfl
      · cases mode with
        | none =>
          cases harrays
          exact hx.sorted
        | setwise =>
          exact (pairwise_foldl_orderedInsert hx.sorted).sublist
            (honorBound_counted harrays (by simp)).1
      · cases mode with
        | none =>
          cases harrays
          simp [hx.arrays_nil rfl]
        | setwise => exact (honorBound_counted harrays (by simp)).2

/-- The block does not lower the bound of an array below its count. -/
def CountedBelow (T : CacheTraits) (P : StaticAddressProvider) (s : SetWiseCountingPersistence)
    (b : Block) : Prop :=
  ∀ array ∈ s.accessedArrays, ∀ bound, s.getPerArrayBound T P array = .ok bound →
    s.accessedArrays.count array + b.surroundingArrays.count array ≤ bound

theorem Normal.insertBlock (h : Normal T P mode s)
    (hb : b ∉ s.accessedBlocks → s.size < T.associativity → CountedBelow T P s b)
    (htop : s.top = false) : Normal T P mode (s.insertBlock T b) := by
  by_cases hmem : b ∈ s.accessedBlocks
  · have hsame : s.insertBlock T b = s := by
      simp [SetWiseCountingPersistence.insertBlock, hmem]
    rw [hsame]
    exact h
  · have hcard := Finset.card_insert_of_notMem hmem
    unfold SetWiseCountingPersistence.insertBlock
    dsimp only
    split_ifs with hfull
    · exact normal_gotoTop _
    · have hroom : s.size < T.associativity := by
        simp only [hmem, not_false_eq_true, true_and, not_lt, size, hcard] at hfull ⊢
        omega
      refine ⟨by simp [htop], h.arrays_nil, h.sorted, ?_, fun array harray => ?_⟩
      · simp only [size, hcard] at hroom ⊢
        omega
      · obtain ⟨bound, hbound, _⟩ := h.counted array harray
        have hle := hb hmem hroom array harray bound hbound
        refine ⟨bound - b.surroundingArrays.count array, ?_, by dsimp only; omega⟩
        rw [getPerArrayBound_eq_ok] at hbound ⊢
        dsimp only
        rw [Finset.sum_insert hmem]
        omega

theorem Normal.countArray (h : Normal T P .setwise s) (htop : s.top = false)
    (hroom : s.size = T.associativity → ∀ bound, s.getPerArrayBound T P array = .ok bound →
      bound ≤ s.accessedArrays.count array)
    (hs' : s.countArray T P array = .ok s') : Normal T P .setwise s' := by
  obtain ⟨bound, hbound, hs'⟩ := bind_eq_ok.mp hs'
  split_ifs at hs' with hlt hfull
  · cases hs'
    exact normal_gotoTop s
  · cases hs'
    have hperm := List.perm_orderedInsert (· ≤ ·) array s.accessedArrays
    refine ⟨by simp [htop], fun hmode => (by cases hmode), h.sorted.orderedInsert _ _, ?_, ?_⟩
    · have hne : s.size ≠ T.associativity := fun hsize =>
        absurd (hroom hsize bound hbound) (Nat.not_le.mpr hlt)
      have hle := h.size_le
      have hlength := hperm.length_eq
      simp only [size, List.length_cons] at hne hle hlength ⊢
      omega
    · intro a ha
      rw [hperm.count_eq]
      by_cases haa : array = a
      · subst haa
        rw [List.count_cons_self]
        exact ⟨bound, hbound, hlt⟩
      · rw [List.count_cons_of_ne haa]
        exact h.counted a ((List.mem_cons.mp (hperm.mem_iff.mp ha)).resolve_left (Ne.symm haa))
  · cases hs'
    exact h

theorem Normal.update (hT : T.Geometry) (h : Normal T P mode s) {addr : AbstractAddress}
    (hprecise : addr.isPrecise = true) (hin : getindex T addr.interval.lower = index)
    (hkeep : s.top = false →
      Block.at T P mode index (getTag T addr.interval.lower) ∉ s.accessedBlocks →
        s.size < T.associativity →
          CountedBelow T P s (Block.at T P mode index (getTag T addr.interval.lower)))
    {load_store : AccessType} {wantReport : Bool} {assumption : Classification}
    {report : Option UpdateReport}
    (hu : s.update T P mode addr load_store wantReport assumption = .ok (s', report)) :
    Normal T P mode s' := by
  unfold SetWiseCountingPersistence.update at hu
  split_ifs at hu with htop
  · cases hu
    exact h
  · obtain ⟨_, _, hu⟩ := bind_eq_ok.mp hu
    rw [Block.new_eq hT hprecise hin, ok_bind] at hu
    cases hu
    rw [Bool.not_eq_true] at htop
    exact h.insertBlock (hkeep htop) htop

theorem Normal.potentialUpdate (h : Normal T P mode s) {addr : AbstractAddress}
    (hkeep : mode = .setwise → Room T P index (.potentialUpdate addr) s)
    {load_store : AccessType} {wantReport : Bool} {report : Option UpdateReport}
    (hu : s.potentialUpdate T P mode addr load_store wantReport = .ok (s', report)) :
    Normal T P mode s' := by
  unfold SetWiseCountingPersistence.potentialUpdate at hu
  split_ifs at hu with htop
  · cases hu
    exact h
  · rw [Bool.not_eq_true] at htop
    split at hu
    · next arr harray =>
      obtain ⟨s₁, hcount, hu⟩ := bind_eq_ok.mp hu
      cases hu
      exact h.countArray htop (fun hsize => hkeep rfl htop hsize arr harray) hcount
    · cases hu
      exact normal_gotoTop s

theorem Normal.equals_iff (hx : Normal T P mode x) (hy : Normal T P mode y) :
    x.equals y = true ↔ x = y := by
  constructor
  · intro h
    unfold equals at h
    split_ifs at h with hr htop
    · have htops : x.top = y.top := beq_iff_eq.mp h
      have hboth : x.top = true ∧ y.top = true := by
        rw [htops] at htop ⊢
        simpa using htop
      rw [← hx.gotoTop_eq hboth.1, ← hy.gotoTop_eq hboth.2]
      unfold gotoTop
      rw [not_not.mp hr]
    · simp only [Bool.or_eq_true, not_or, Bool.not_eq_true] at htop
      simp only [Bool.and_eq_true, decide_eq_true_eq] at h
      obtain ⟨r, top, accessedBlocks, accessedArrays⟩ := x
      obtain ⟨r', top', accessedBlocks', accessedArrays'⟩ := y
      dsimp only at hr htop h
      rw [not_not.mp hr, htop.1, htop.2, h.1, h.2]
  · rintro rfl
    unfold equals
    cases x.top <;> simp

theorem Normal.lessequal_self (h : Normal T P mode s) : s.lessequal T P mode s = .ok true := by
  rw [lessequal, h.join_self, ok_bind, (h.equals_iff h).mpr rfl]

/-- The blocks of both sets around an array that is counted in one of them are no more than
what the array has in a set. -/
def Compatible (T : CacheTraits) (P : StaticAddressProvider)
    (x y : SetWiseCountingPersistence) : Prop :=
  ∀ array, array ∈ x.accessedArrays ∨ array ∈ y.accessedArrays →
    ∑ b ∈ x.accessedBlocks ∪ y.accessedBlocks, (b.surroundingArrays.count array : ℤ) ≤
      (BitVec.ofNat 32 (getPerSetSize T P array)).toInt

theorem Compatible.symm (h : Compatible T P x y) : Compatible T P y x := by
  intro array harray
  rw [Finset.union_comm]
  exact h array harray.symm

/-- Sets of blocks of one cache set are compatible. -/
theorem compatible_of_shaped (hT : T.Geometry) (hindex : index < T.nSets)
    (hx : Shaped T P mode index x) (hy : Shaped T P mode index y) : Compatible T P x y := by
  intro array _
  have hblocks : ∀ b ∈ x.accessedBlocks ∪ y.accessedBlocks, b = Block.at T P mode index b.tag := by
    intro b hb
    rcases Finset.mem_union.mp hb with hb | hb
    · exact hx.block_eq b hb
    · exact hy.block_eq b hb
  obtain ⟨bound, hbound, _⟩ := getPerArrayBound_spec
    (s := { x with accessedBlocks := x.accessedBlocks ∪ y.accessedBlocks }) hT hindex hblocks array
  rw [getPerArrayBound_eq_ok] at hbound
  dsimp only at hbound
  omega

theorem Compatible.lessequal_returns (h : Compatible T P x y) :
    ∃ le, x.lessequal T P mode y = .ok le := by
  by_cases htop : x.top = true ∨ y.top = true
  · rw [lessequal, join_of_top htop]
    exact ⟨_, rfl⟩
  · simp only [not_or, Bool.not_eq_true] at htop
    obtain ⟨arrays, harrays⟩ : ∃ arrays, ({ x with accessedBlocks := x.accessedBlocks ∪
        y.accessedBlocks } : SetWiseCountingPersistence).joinArrays T P mode y.accessedArrays =
          .ok arrays := by
      cases mode with
      | none => exact ⟨_, rfl⟩
      | setwise =>
        apply honorBound_returns
        intro array harray
        have hle := h array (mem_mergeArrays harray)
        refine ⟨((BitVec.ofNat 32 (getPerSetSize T P array)).toInt -
          ∑ b ∈ x.accessedBlocks ∪ y.accessedBlocks,
            (b.surroundingArrays.count array : ℤ)).toNat, ?_⟩
        rw [getPerArrayBound_eq_ok]
        dsimp only
        omega
    rw [lessequal, join_of_not_top htop.1 htop.2, harrays, ok_bind]
    exact ⟨_, rfl⟩

/-- What `lessequal` says of states that are not top. -/
theorem of_lessequal (hy : y.top = false) (h : x.lessequal T P mode y = .ok true) :
    x.r = y.r ∧ x.top = false ∧ x.accessedBlocks ⊆ y.accessedBlocks ∧
      ({ x with accessedBlocks := y.accessedBlocks } : SetWiseCountingPersistence).joinArrays
        T P mode y.accessedArrays = .ok y.accessedArrays := by
  obtain ⟨u, hu, h⟩ := bind_eq_ok.mp h
  have hequal : u.equals y = true := Except.ok.inj h
  have hutop : u.r = y.r ∧ u.top = false ∧ u.accessedBlocks = y.accessedBlocks ∧
      u.accessedArrays = y.accessedArrays := by
    unfold equals at hequal
    split_ifs at hequal with hr htop
    · rw [hy, beq_iff_eq] at hequal
      simp [hequal, hy] at htop
    · simp only [Bool.or_eq_true, not_or, Bool.not_eq_true] at htop
      simp only [Bool.and_eq_true, decide_eq_true_eq] at hequal
      exact ⟨not_not.mp hr, htop.1, hequal⟩
  have hx : x.top = false := by
    by_contra hx
    rw [join_of_top (.inl (by simpa using hx))] at hu
    cases hu
    exact absurd hutop.2.1 (by simp [gotoTop])
  rw [join_of_not_top hx hy] at hu
  obtain ⟨arrays, harrays, hu⟩ := bind_eq_ok.mp hu
  cases hu
  unfold checkSize at hutop
  split_ifs at hutop
  · exact absurd hutop.2.1 (by simp [gotoTop])
  · obtain ⟨hr, _, hblocks, rfl⟩ := hutop
    dsimp only at hr hblocks
    rw [hblocks] at harrays
    exact ⟨hr, hx, hblocks ▸ Finset.subset_union_left, harrays⟩

theorem Normal.count_le (h : Normal T P mode s) {bound : ℕ}
    (hbound : s.getPerArrayBound T P array = .ok bound) : s.accessedArrays.count array ≤ bound := by
  by_cases hmem : array ∈ s.accessedArrays
  · obtain ⟨bound', hbound', hle⟩ := h.counted array hmem
    rw [hbound'] at hbound
    cases hbound
    exact hle
  · rw [List.count_eq_zero_of_not_mem hmem]
    exact Nat.zero_le _

/-- Arrays that are counted within their bounds are joined to their maximum. -/
theorem Normal.count_le_of_joinArrays (hx : Normal T P mode x) (hy : Normal T P mode y)
    (hblocks : x.accessedBlocks = y.accessedBlocks)
    (h : x.joinArrays T P mode y.accessedArrays = .ok y.accessedArrays) (a : GlobalVariable) :
    x.accessedArrays.count a ≤ y.accessedArrays.count a := by
  cases mode with
  | none =>
    rw [hx.arrays_nil rfl]
    exact Nat.zero_le _
  | setwise =>
    have hbounds (a : GlobalVariable) (n : ℕ) : x.getPerArrayBound T P a = .ok n ↔
        y.getPerArrayBound T P a = .ok n := by
      rw [getPerArrayBound_eq_ok, getPerArrayBound_eq_ok, hblocks]
    have hmerged : honorBound (x.getPerArrayBound T P) []
        (mergeArrays x.accessedArrays y.accessedArrays) =
          .ok (mergeArrays x.accessedArrays y.accessedArrays) := by
      rw [honorBound_of_le, List.nil_append]
      intro array harray
      obtain ⟨bound, hbound⟩ : ∃ bound, x.getPerArrayBound T P array = .ok bound := by
        rcases mem_mergeArrays harray with harray | harray
        · obtain ⟨bound, hbound, _⟩ := hx.counted array harray
          exact ⟨bound, hbound⟩
        · obtain ⟨bound, hbound, _⟩ := hy.counted array harray
          exact ⟨bound, (hbounds array bound).mpr hbound⟩
      refine ⟨bound, hbound, ?_⟩
      rw [List.nil_append, count_mergeArrays]
      exact max_le (hx.count_le hbound) (hy.count_le ((hbounds array bound).mp hbound))
    have heq : mergeArrays x.accessedArrays y.accessedArrays = y.accessedArrays :=
      Except.ok.inj (hmerged.symm.trans h)
    rw [← heq, count_mergeArrays]
    exact le_max_left _ _

theorem Normal.eq_of_lessequal (hx : Normal T P mode x) (hy : Normal T P mode y)
    (hxy : x.lessequal T P mode y = .ok true) (hyx : y.lessequal T P mode x = .ok true) :
    x = y := by
  cases htop : y.top with
  | true =>
    have htop' : x.top = true := by
      by_contra hx'
      have hy' := (of_lessequal (by simpa using hx') hyx).2.1
      rw [htop] at hy'
      cases hy'
    have hr : x.r = y.r := by
      rw [lessequal, join_of_top (.inl htop'), hx.gotoTop_eq htop', ok_bind] at hxy
      have hequal : x.equals y = true := Except.ok.inj hxy
      rw [(hx.equals_iff hy).mp hequal]
    rw [← hx.gotoTop_eq htop', ← hy.gotoTop_eq htop]
    unfold gotoTop
    rw [hr]
  | false =>
    obtain ⟨hr, htop', hsub, harrays⟩ := of_lessequal htop hxy
    obtain ⟨_, _, hsub', harrays'⟩ := of_lessequal htop' hyx
    have hblocks := Finset.Subset.antisymm hsub hsub'
    rw [← hblocks] at harrays
    rw [hblocks] at harrays'
    have hcount (a : GlobalVariable) : x.accessedArrays.count a = y.accessedArrays.count a :=
      le_antisymm (hx.count_le_of_joinArrays hy hblocks harrays a)
        (hy.count_le_of_joinArrays hx hblocks.symm harrays' a)
    have heq := eq_of_count_eq hx.sorted hy.sorted hcount
    obtain ⟨r, top, accessedBlocks, accessedArrays⟩ := x
    obtain ⟨r', top', accessedBlocks', accessedArrays'⟩ := y
    dsimp only at hr htop htop' hblocks heq
    rw [hr, htop, htop', hblocks, heq]

/-- What `operator<` compares, in this order. -/
def key (s : SetWiseCountingPersistence) :
    ℕ ×ₗ Bool ×ₗ List (ℕ ×ₗ List GlobalVariable) ×ₗ List GlobalVariable :=
  toLex (s.r, toLex (s.top, toLex (s.orderedBlocks, s.accessedArrays)))

theorem blockKey_injective : Function.Injective blockKey := by
  rintro ⟨tag, arrays⟩ ⟨tag', arrays'⟩ h
  cases toLex.injective h
  rfl

theorem orderedBlocks_eq_iff : x.orderedBlocks = y.orderedBlocks ↔
    x.accessedBlocks = y.accessedBlocks := by
  constructor
  · intro h
    have himage := congrArg List.toFinset h
    rw [orderedBlocks, orderedBlocks, Finset.sort_toFinset, Finset.sort_toFinset] at himage
    exact Finset.image_injective blockKey_injective himage
  · intro h
    rw [orderedBlocks, orderedBlocks, h]

theorem Normal.key_eq_iff (hx : Normal T P mode x) (hy : Normal T P mode y) :
    x.key = y.key ↔ x = y := by
  constructor
  · intro h
    simp only [key, toLex_inj, Prod.mk.injEq, orderedBlocks_eq_iff] at h
    obtain ⟨r, top, accessedBlocks, accessedArrays⟩ := x
    obtain ⟨r', top', accessedBlocks', accessedArrays'⟩ := y
    dsimp only at h
    rw [h.1, h.2.1, h.2.2.1, h.2.2.2]
  · exact congrArg key

theorem Normal.less_eq (hx : Normal T P mode x) (hy : Normal T P mode y) :
    x.less y = decide (x.key < y.key) := by
  unfold less key
  simp only [Prod.Lex.toLex_lt_toLex]
  by_cases hr : x.r = y.r
  · rw [if_neg (not_not.mpr hr)]
    simp only [hr, lt_irrefl, true_and, false_or]
    cases htop : x.top with
    | true =>
      obtain ⟨hblocks, harrays⟩ := hx.cleared htop
      cases htop' : y.top with
      | true =>
        obtain ⟨hblocks', harrays'⟩ := hy.cleared htop'
        have horder := orderedBlocks_eq_iff.mpr (hblocks.trans hblocks'.symm)
        simp [horder, harrays, harrays']
      | false => simp
    | false =>
      cases htop' : y.top with
      | true => simp
      | false =>
        by_cases hblocks : x.accessedBlocks = y.accessedBlocks
        · have horder := orderedBlocks_eq_iff.mpr hblocks
          by_cases harrays : x.accessedArrays = y.accessedArrays
          · simp [hblocks, horder, harrays]
          · simp [hblocks, horder, harrays]
        · have horder := orderedBlocks_eq_iff.not.mpr hblocks
          simp [hblocks, horder]
  · rw [if_pos hr]
    simp [hr]

end SetWiseCountingPersistence

/-! ## Element-wise counting -/

namespace ElementWiseCountingPersistence

variable {e e' x y u : ElementWiseCountingPersistence}

/-- Each conflict set stands a join with itself. -/
def Normal (T : CacheTraits) (P : StaticAddressProvider) (mode : ArrayPersistenceAnaType)
    (e : ElementWiseCountingPersistence) : Prop :=
  ∀ t s, e.ele2conflicts.find? t = some s → s.Normal T P mode

/-- The conflict sets of the same tag are compatible. -/
def Compatible (T : CacheTraits) (P : StaticAddressProvider)
    (x y : ElementWiseCountingPersistence) : Prop :=
  ∀ t s s', x.ele2conflicts.find? t = some s → y.ele2conflicts.find? t = some s' →
    s.Compatible T P s'

theorem Compatible.symm (h : Compatible T P x y) : Compatible T P y x :=
  fun t s s' hs hs' => (h t s' s hs' hs).symm

theorem normal_new : Normal T P mode new := fun t s hs => by cases hs

theorem Normal.of_mem (h : Normal T P mode e) {e2c : ℕ × SetWiseCountingPersistence}
    (hmem : e2c ∈ e.ele2conflicts.entries) : e2c.2.Normal T P mode :=
  h e2c.1 e2c.2 (OrderedMap.mem_entries_iff.mp hmem)

theorem Normal.join_self (h : Normal T P mode e) : e.join T P mode e = .ok e := by
  have hmerge : (OrderedMap.merge (joinConflicts T P mode) e.ele2conflicts
      e.ele2conflicts).sequence = .ok e.ele2conflicts :=
    OrderedMap.sequence_merge_self fun t s hs => (h t s hs).join_self
  rw [join, hmerge, ok_bind]

theorem lessequalEntries_eq_true {y : OrderedMap ℕ SetWiseCountingPersistence}
    {entries : List (ℕ × SetWiseCountingPersistence)} :
    lessequalEntries T P mode y entries = .ok true ↔ ∀ e2c ∈ entries, ∃ t,
      y.find? e2c.1 = some t ∧ e2c.2.lessequal T P mode t = .ok true := by
  induction entries with
  | nil => simp [lessequalEntries]
  | cons e2c entries ih =>
    rw [lessequalEntries, List.forall_mem_cons, ← ih]
    cases y.find? e2c.1 with
    | none => simp
    | some t =>
      cases hle : e2c.2.lessequal T P mode t with
      | error fault => simp [hle]
      | ok le => cases le <;> simp [hle]

theorem lessequalEntries_returns {y : OrderedMap ℕ SetWiseCountingPersistence}
    {entries : List (ℕ × SetWiseCountingPersistence)}
    (h : ∀ e2c ∈ entries, ∀ t, y.find? e2c.1 = some t →
      ∃ le, e2c.2.lessequal T P mode t = .ok le) :
    ∃ le, lessequalEntries T P mode y entries = .ok le := by
  induction entries with
  | nil => exact ⟨true, rfl⟩
  | cons e2c entries ih =>
    obtain ⟨hfirst, hrest⟩ := List.forall_mem_cons.mp h
    rw [lessequalEntries]
    cases ht : y.find? e2c.1 with
    | none => exact ⟨false, rfl⟩
    | some t =>
      obtain ⟨le, hle⟩ := hfirst t ht
      dsimp only
      rw [hle, ok_bind]
      cases le with
      | false => exact ⟨false, rfl⟩
      | true => exact ih hrest

theorem lessequal_eq_true : x.lessequal T P mode y = .ok true ↔
    ∀ t s, x.ele2conflicts.find? t = some s → ∃ s', y.ele2conflicts.find? t = some s' ∧
      s.lessequal T P mode s' = .ok true := by
  rw [lessequal, lessequalEntries_eq_true]
  constructor
  · intro h t s hs
    exact h (t, s) (OrderedMap.mem_entries_iff.mpr hs)
  · intro h e2c he2c
    exact h e2c.1 e2c.2 (OrderedMap.mem_entries_iff.mp he2c)

theorem Normal.lessequal_self (h : Normal T P mode e) : e.lessequal T P mode e = .ok true :=
  lessequal_eq_true.mpr fun t s hs => ⟨s, hs, (h t s hs).lessequal_self⟩

theorem Compatible.lessequal_returns (h : Compatible T P x y) (mode : ArrayPersistenceAnaType) :
    ∃ le, x.lessequal T P mode y = .ok le := by
  apply lessequalEntries_returns
  intro e2c he2c t ht
  exact (h e2c.1 e2c.2 t (OrderedMap.mem_entries_iff.mp he2c) ht).lessequal_returns

theorem Normal.eq_of_lessequal (hx : Normal T P mode x) (hy : Normal T P mode y)
    (hxy : x.lessequal T P mode y = .ok true) (hyx : y.lessequal T P mode x = .ok true) :
    x = y := by
  rw [lessequal_eq_true] at hxy hyx
  have hfind : x.ele2conflicts = y.ele2conflicts := by
    apply OrderedMap.ext_find?
    intro t
    cases hs : x.ele2conflicts.find? t with
    | none =>
      cases hs' : y.ele2conflicts.find? t with
      | none => rfl
      | some s' =>
        obtain ⟨s, hs₁, _⟩ := hyx t s' hs'
        rw [hs] at hs₁
        cases hs₁
    | some s =>
      obtain ⟨s', hs', hle⟩ := hxy t s hs
      obtain ⟨s₁, hs₁, hle'⟩ := hyx t s' hs'
      rw [hs] at hs₁
      cases hs₁
      rw [hs', (hx t s hs).eq_of_lessequal (hy t s' hs') hle hle']
  obtain ⟨ele2conflicts⟩ := x
  obtain ⟨ele2conflicts'⟩ := y
  exact congrArg ElementWiseCountingPersistence.mk hfind

/-- Compatible states are compared, and equal only if they hold the same. -/
theorem Normal.equals_eq (hx : Normal T P mode x) (hy : Normal T P mode y)
    (hxy : Compatible T P x y) : x.equals T P mode y = .ok (decide (x = y)) := by
  obtain ⟨le, hle⟩ := hxy.lessequal_returns mode
  obtain ⟨le', hle'⟩ := hxy.symm.lessequal_returns mode
  rw [equals, hle, ok_bind]
  by_cases heq : x = y
  · subst heq
    rw [hx.lessequal_self] at hle
    cases hle
    rw [if_pos rfl, hx.lessequal_self, decide_eq_true rfl]
  · rw [decide_eq_false heq]
    cases le with
    | false => rfl
    | true =>
      rw [if_pos rfl, hle']
      cases le' with
      | false => rfl
      | true => exact absurd (hx.eq_of_lessequal hy hle hle') heq

/-- The access keeps up the conflict sets, that of its own tag being started afresh. -/
def KeepsUpdate (T : CacheTraits) (P : StaticAddressProvider) (mode : ArrayPersistenceAnaType)
    (index : ℕ) (addr : AbstractAddress) (e : ElementWiseCountingPersistence) : Prop :=
  let tag := getTag T addr.interval.lower
  ∀ t s, e.ele2conflicts.find? t = some s → t ≠ tag → s.top = false →
    Block.at T P mode index tag ∉ s.accessedBlocks → s.size < T.associativity →
      s.CountedBelow T P (Block.at T P mode index tag)

/-- The access into an array finds room in each conflict set in which it is counted. -/
def KeepsPotentialUpdate (T : CacheTraits) (P : StaticAddressProvider)
    (mode : ArrayPersistenceAnaType) (index : ℕ) (addr : AbstractAddress)
    (e : ElementWiseCountingPersistence) : Prop :=
  ∀ t s, e.ele2conflicts.find? t = some s → mode = .setwise →
    SetWiseCountingPersistence.Room T P index (.potentialUpdate addr) s

theorem Normal.update (hT : T.Geometry) (h : Normal T P mode e) {addr : AbstractAddress}
    (hprecise : addr.isPrecise = true) (hin : getindex T addr.interval.lower = index)
    (hkeep : KeepsUpdate T P mode index addr e) {load_store : AccessType} {wantReport : Bool}
    {assumption : Classification} {report : Option UpdateReport}
    (hu : e.update T P mode addr load_store wantReport assumption = .ok (e', report)) :
    Normal T P mode e' := by
  obtain ⟨tag, htag, hu⟩ := bind_eq_ok.mp hu
  obtain ⟨entries, hentries, hu⟩ := bind_eq_ok.mp hu
  cases hu
  obtain rfl : getTag T addr.interval.lower = tag := by
    obtain ⟨_, _, htag⟩ := bind_eq_ok.mp htag
    exact Except.ok.inj htag
  intro t s' hs'
  rcases OrderedMap.sequence_mapValues hentries t with ⟨_, hnone⟩ | ⟨s, s'', hs, hf, hs''⟩
  · rw [hnone] at hs'
    cases hs'
  · obtain rfl : s'' = s' := Option.some.inj (hs''.symm.trans hs')
    obtain ⟨_, hf⟩ := fst_map_eq_ok hf
    rw [OrderedMap.find?_insert] at hs
    split_ifs at hs with ht
    · cases hs
      refine (SetWiseCountingPersistence.normal_new _).update hT hprecise hin ?_ hf
      intro _ _ _ array harray
      exact absurd harray List.not_mem_nil
    · exact (h t s hs).update hT hprecise hin (hkeep t s hs (Ne.symm ht)) hf

theorem Normal.potentialUpdate (h : Normal T P mode e) {addr : AbstractAddress}
    (hkeep : KeepsPotentialUpdate T P mode index addr e) {load_store : AccessType}
    {wantReport : Bool} {report : Option UpdateReport}
    (hu : e.potentialUpdate T P mode addr load_store wantReport = .ok (e', report)) :
    Normal T P mode e' := by
  obtain ⟨entries, hentries, hu⟩ := bind_eq_ok.mp hu
  cases hu
  intro t s' hs'
  rcases OrderedMap.sequence_mapValues hentries t with ⟨_, hnone⟩ | ⟨s, s'', hs, hf, hs''⟩
  · rw [hnone] at hs'
    cases hs'
  · obtain rfl : s'' = s' := Option.some.inj (hs''.symm.trans hs')
    obtain ⟨_, hf⟩ := fst_map_eq_ok hf
    exact (h t s hs).potentialUpdate (hkeep t s hs) hf

theorem Normal.join (hx : Normal T P mode x) (hy : Normal T P mode y)
    (hu : x.join T P mode y = .ok u) : Normal T P mode u := by
  obtain ⟨entries, hentries, hu⟩ := bind_eq_ok.mp hu
  cases hu
  intro t s hs
  rcases OrderedMap.sequence_merge hentries t with ⟨_, _, hnone⟩ | ⟨s', hf, hs'⟩
  · rw [hnone] at hs
    cases hs
  · obtain rfl : s' = s := Option.some.inj (hs'.symm.trans hs)
    cases hsx : x.ele2conflicts.find? t with
    | none =>
      cases hsy : y.ele2conflicts.find? t with
      | none =>
        rw [hsx, hsy] at hf
        cases hf
      | some sy =>
        rw [hsx, hsy] at hf
        cases hf
        exact hy t _ hsy
    | some sx =>
      cases hsy : y.ele2conflicts.find? t with
      | none =>
        rw [hsx, hsy] at hf
        cases hf
        exact hx t _ hsx
      | some sy =>
        rw [hsx, hsy] at hf
        exact (hx t sx hsx).join hf

/-- What `operator<` compares of an entry. -/
def entryKey (e2c : ℕ × SetWiseCountingPersistence) :
    ℕ ×ₗ ℕ ×ₗ Bool ×ₗ List (ℕ ×ₗ List GlobalVariable) ×ₗ List GlobalVariable :=
  toLex (e2c.1, e2c.2.key)

/-- The number of entries, and the entries in their order. -/
def key (e : ElementWiseCountingPersistence) :
    ℕ ×ₗ List (ℕ ×ₗ ℕ ×ₗ Bool ×ₗ List (ℕ ×ₗ List GlobalVariable) ×ₗ List GlobalVariable) :=
  toLex (e.ele2conflicts.entries.length, e.ele2conflicts.entries.map entryKey)

theorem compareEntries_eq {it1 it2 : ℕ × SetWiseCountingPersistence}
    (h₁ : it1.2.Normal T P mode) (h₂ : it2.2.Normal T P mode) :
    compareEntries it1 it2 = Lexicographic.compareKeys (entryKey it1) (entryKey it2) := by
  unfold compareEntries Lexicographic.compareKeys entryKey
  simp only [toLex_inj, Prod.mk.injEq, h₁.key_eq_iff h₂, Prod.Lex.toLex_lt_toLex]
  by_cases htag : it1.1 = it2.1
  · rw [if_neg (not_not.mpr htag)]
    by_cases heq : it1.2 = it2.2
    · simp [htag, heq, (h₂.equals_iff h₂).mpr rfl]
    · have hequals : it1.2.equals it2.2 = false := by
        simpa using (h₁.equals_iff h₂).not.mpr heq
      simp [htag, heq, hequals, h₁.less_eq h₂]
  · simp [htag]

theorem Normal.less_eq (hx : Normal T P mode x) (hy : Normal T P mode y) :
    x.less y = decide (x.key < y.key) := by
  unfold less key
  simp only [Prod.Lex.toLex_lt_toLex]
  by_cases hlength : x.ele2conflicts.entries.length = y.ele2conflicts.entries.length
  · have hsteps : ∀ it1 ∈ x.ele2conflicts.entries, ∀ it2 ∈ y.ele2conflicts.entries,
        compareEntries it1 it2 = Lexicographic.compareKeys (entryKey it1) (entryKey it2) :=
      fun it1 h₁ it2 h₂ => compareEntries_eq (hx.of_mem h₁) (hy.of_mem h₂)
    rw [if_neg (not_not.mpr hlength), Lexicographic.walk_eq hsteps hlength]
    simp [hlength]
  · rw [if_pos hlength]
    simp [hlength]

theorem Normal.key_eq_iff (hx : Normal T P mode x) (hy : Normal T P mode y) :
    x.key = y.key ↔ x = y := by
  constructor
  · intro h
    simp only [key, toLex_inj, Prod.mk.injEq] at h
    have hentries : x.ele2conflicts.entries = y.ele2conflicts.entries := by
      apply Lexicographic.eq_of_map_eq _ h.2
      rintro ⟨t, s⟩ hs ⟨t', s'⟩ hs' heq
      simp only [entryKey, toLex_inj, Prod.mk.injEq] at heq
      have hsame : s = s' := ((hx.of_mem hs).key_eq_iff (hy.of_mem hs')).mp heq.2
      rw [heq.1, hsame]
    obtain ⟨ele2conflicts⟩ := x
    obtain ⟨ele2conflicts'⟩ := y
    exact congrArg ElementWiseCountingPersistence.mk (OrderedMap.ext hentries)
  · exact congrArg key

end ElementWiseCountingPersistence

/-! ## Several scopes -/

namespace MultiScopePersistence

variable {x y m m' u : MultiScopePersistence ElementWiseCountingPersistence}
  {O : SetWiseCountingPersistence.SharedOptions}

/-- The analysis of each scope stands a join with itself, and each scope has its count. -/
structure Normal (T : CacheTraits) (P : StaticAddressProvider) (mode : ArrayPersistenceAnaType)
    (m : MultiScopePersistence ElementWiseCountingPersistence) : Prop where
  info : ∀ scope e, m.scopes2info.find? scope = some e → e.Normal T P mode
  keys_eq : m.scopes2entercount.keys = m.scopes2info.keys

/-- The analyses of the same scope are compatible. -/
def Compatible (T : CacheTraits) (P : StaticAddressProvider)
    (x y : MultiScopePersistence ElementWiseCountingPersistence) : Prop :=
  ∀ scope e e', x.scopes2info.find? scope = some e → y.scopes2info.find? scope = some e' →
    e.Compatible T P e'

theorem Normal.of_mem (h : Normal T P mode m) {it : ℕ × ElementWiseCountingPersistence}
    (hmem : it ∈ m.scopes2info.entries) : it.2.Normal T P mode :=
  h.info it.1 it.2 (OrderedMap.mem_entries_iff.mp hmem)

theorem Normal.find?_eq_none_iff (h : Normal T P mode m) {scope : ℕ} :
    m.scopes2entercount.find? scope = none ↔ m.scopes2info.find? scope = none := by
  have hmem : scope ∈ m.scopes2entercount.keys ↔ scope ∈ m.scopes2info.keys := by rw [h.keys_eq]
  rw [OrderedMap.mem_keys, OrderedMap.mem_keys] at hmem
  exact not_iff_not.mp hmem

theorem compareScopes_self {σ : Type} {compare : σ → σ → Except Fault Bool} {message : String}
    {l : List (ℕ × σ)} (h : ∀ it ∈ l, compare it.2 it.2 = .ok true) :
    compareScopes compare message l l = .ok true := by
  induction l with
  | nil => rfl
  | cons it l ih =>
    rw [compareScopes, beq_self_eq_true, assertThat_true, ok_bind, h it List.mem_cons_self, ok_bind,
      if_pos rfl]
    exact ih fun it' hit' => h it' (List.mem_cons_of_mem it hit')

theorem Normal.lessequal_self (h : Normal T P mode m) :
    m.lessequal (elementWiseOrder T P mode) m = .ok true := by
  rw [lessequal, beq_self_eq_true, beq_self_eq_true, assertThat_true, assertThat_true, ok_bind,
    ok_bind]
  exact compareScopes_self fun it hit => (h.of_mem hit).lessequal_self

theorem Normal.equals_self (h : Normal T P mode m) :
    m.equals (elementWiseOrder T P mode) m = .ok true := by
  rw [equals, beq_self_eq_true, beq_self_eq_true, assertThat_true, assertThat_true, ok_bind,
    ok_bind]
  apply compareScopes_self
  intro it hit
  have hle := (h.of_mem hit).lessequal_self
  change it.2.equals T P mode it.2 = .ok true
  rw [ElementWiseCountingPersistence.equals, hle, ok_bind, if_pos rfl]

theorem Normal.join_self (h : Normal T P mode m) :
    m.join (elementWise T P mode O) m = .ok m := by
  have hmerge : (OrderedMap.merge (joinScope (elementWise T P mode O)) m.scopes2info
      m.scopes2info).sequence = .ok m.scopes2info :=
    OrderedMap.sequence_merge_self fun scope e he => (h.info scope e he).join_self
  simp only [join, beq_self_eq_true, assertThat_true, ok_bind, hmerge]

/-- What `operator<` compares of a scope. -/
def scopeKey (m : MultiScopePersistence ElementWiseCountingPersistence)
    (it : ℕ × ElementWiseCountingPersistence) :
    ℕ ×ₗ (ℕ ×ₗ List (ℕ ×ₗ ℕ ×ₗ Bool ×ₗ List (ℕ ×ₗ List GlobalVariable) ×ₗ
      List GlobalVariable)) ×ₗ ℕ :=
  toLex (it.1, toLex (it.2.key, (m.scopes2entercount.find? it.1).getD 0))

theorem Normal.entercountAt_eq (h : Normal T P mode m) {it : ℕ × ElementWiseCountingPersistence}
    (hmem : it ∈ m.scopes2info.entries) :
    m.entercountAt it.1 = .ok ((m.scopes2entercount.find? it.1).getD 0) := by
  unfold entercountAt
  cases hcount : m.scopes2entercount.find? it.1 with
  | none =>
    rw [h.find?_eq_none_iff, OrderedMap.mem_entries_iff.mp hmem] at hcount
    cases hcount
  | some count => rfl

theorem Normal.stepLess_eq (hx : Normal T P mode x) (hy : Normal T P mode y)
    (hxy : Compatible T P x y) {it1 it2 : ℕ × ElementWiseCountingPersistence}
    (h₁ : it1 ∈ x.scopes2info.entries) (h₂ : it2 ∈ y.scopes2info.entries) :
    stepLess (elementWiseOrder T P mode) x y it1 it2 =
      .ok (Lexicographic.compareKeys (x.scopeKey it1) (y.scopeKey it2)) := by
  have hn₁ := hx.of_mem h₁
  have hn₂ := hy.of_mem h₂
  unfold stepLess Lexicographic.compareKeys scopeKey
  simp only [toLex_inj, Prod.mk.injEq, hn₁.key_eq_iff hn₂, Prod.Lex.toLex_lt_toLex]
  by_cases hscope : it1.1 = it2.1
  · have hcompat : it1.2.Compatible T P it2.2 :=
      hxy it1.1 it1.2 it2.2 (OrderedMap.mem_entries_iff.mp h₁)
        (hscope ▸ OrderedMap.mem_entries_iff.mp h₂)
    have hequals : (elementWiseOrder T P mode).equals it1.2 it2.2 =
        .ok (decide (it1.2 = it2.2)) := hn₁.equals_eq hn₂ hcompat
    have hless : (elementWiseOrder T P mode).less it1.2 it2.2 =
        decide (it1.2.key < it2.2.key) := hn₁.less_eq hn₂
    rw [if_neg (not_not.mpr hscope), hequals, ok_bind, hx.entercountAt_eq h₁,
      hy.entercountAt_eq h₂, ok_bind, ok_bind]
    by_cases heq : it1.2 = it2.2
    · rw [heq]
      simp only [hscope, true_and]
      split_ifs <;> simp_all
    · simp [hscope, heq, hless]
  · simp [hscope]

/-- What `operator<` compares: the number of scopes, and the scopes in their order. -/
def key (m : MultiScopePersistence ElementWiseCountingPersistence) :
    ℕ ×ₗ List (ℕ ×ₗ (ℕ ×ₗ List (ℕ ×ₗ ℕ ×ₗ Bool ×ₗ List (ℕ ×ₗ List GlobalVariable) ×ₗ
      List GlobalVariable)) ×ₗ ℕ) :=
  toLex (m.scopes2info.entries.length, m.scopes2info.entries.map m.scopeKey)

theorem Normal.less_eq (hx : Normal T P mode x) (hy : Normal T P mode y)
    (hxy : Compatible T P x y) :
    less (elementWiseOrder T P mode) x y = .ok (decide (x.key < y.key)) := by
  unfold less key
  simp only [Prod.Lex.toLex_lt_toLex]
  by_cases hlength : x.scopes2info.entries.length = y.scopes2info.entries.length
  · have hsteps : ∀ it1 ∈ x.scopes2info.entries, ∀ it2 ∈ y.scopes2info.entries,
        stepLess (elementWiseOrder T P mode) x y it1 it2 =
          .ok (Lexicographic.compareKeys (x.scopeKey it1) (y.scopeKey it2)) :=
      fun it1 h₁ it2 h₂ => hx.stepLess_eq hy hxy h₁ h₂
    rw [if_neg (not_not.mpr hlength), Lexicographic.walkM_eq hsteps,
      Lexicographic.walk_eq (fun _ _ _ _ => rfl) hlength]
    simp [hlength]
  · rw [if_pos hlength]
    simp [hlength]

theorem Normal.key_eq_iff (hx : Normal T P mode x) (hy : Normal T P mode y) :
    x.key = y.key ↔ x = y := by
  constructor
  · intro h
    simp only [key, toLex_inj, Prod.mk.injEq] at h
    have hscope (it1 it2 : ℕ × ElementWiseCountingPersistence)
        (h₁ : it1 ∈ x.scopes2info.entries) (h₂ : it2 ∈ y.scopes2info.entries)
        (hkey : x.scopeKey it1 = y.scopeKey it2) : it1 = it2 ∧
          x.scopes2entercount.find? it1.1 = y.scopes2entercount.find? it1.1 := by
      simp only [scopeKey, toLex_inj, Prod.mk.injEq] at hkey
      obtain ⟨hscope, hanalysis, hcount⟩ := hkey
      have heq : it1 = it2 :=
        Prod.ext hscope (((hx.of_mem h₁).key_eq_iff (hy.of_mem h₂)).mp hanalysis)
      subst heq
      have hcounts := hx.entercountAt_eq h₁
      rw [hcount, ← hy.entercountAt_eq h₂] at hcounts
      unfold entercountAt at hcounts
      refine ⟨rfl, ?_⟩
      cases hcx : x.scopes2entercount.find? it1.1 with
      | none =>
        rw [hx.find?_eq_none_iff, OrderedMap.mem_entries_iff.mp h₁] at hcx
        cases hcx
      | some c =>
        cases hcy : y.scopes2entercount.find? it1.1 with
        | none =>
          rw [hy.find?_eq_none_iff, OrderedMap.mem_entries_iff.mp h₂] at hcy
          cases hcy
        | some d =>
          rw [hcx, hcy] at hcounts
          exact congrArg some (Except.ok.inj hcounts)
    have hinfo : x.scopes2info = y.scopes2info :=
      OrderedMap.ext (Lexicographic.eq_of_map_eq
        (fun it1 h₁ it2 h₂ hkey => (hscope it1 it2 h₁ h₂ hkey).1) h.2)
    have hcount : x.scopes2entercount = y.scopes2entercount := by
      apply OrderedMap.ext_find?
      intro scope
      cases hs : x.scopes2info.find? scope with
      | none =>
        rw [hx.find?_eq_none_iff.mpr hs, hy.find?_eq_none_iff.mpr (hinfo ▸ hs)]
      | some e =>
        have hmem : (scope, e) ∈ x.scopes2info.entries := OrderedMap.mem_entries_iff.mpr hs
        have hkey : x.scopeKey (scope, e) = y.scopeKey (scope, e) := by
          have hmaps := h.2
          rw [← hinfo] at hmaps
          exact List.map_inj_left.mp hmaps _ hmem
        exact (hscope _ _ hmem (hinfo ▸ hmem) hkey).2
    obtain ⟨scopes2info, scopes2entercount⟩ := x
    obtain ⟨scopes2info', scopes2entercount'⟩ := y
    dsimp only at hinfo hcount
    rw [hinfo, hcount]
  · exact congrArg key

end MultiScopePersistence

end Llvmta
