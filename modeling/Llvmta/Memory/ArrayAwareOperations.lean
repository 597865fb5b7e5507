import Llvmta.Library.LruConflict
import Llvmta.Memory.LruMaxAgeArrayAwareCache

/-!
# Operations of the array-aware must analysis

What the updates and the join do to the single entries, for caches with at most
255 ways, whose ages fit in eight bits.
-/

namespace Llvmta

open Checked

namespace MustAge

variable {T : CacheTraits} {P : StaticAddressProvider} {m n : MustAge}

theorem isAssociativity_eq_false (h : m.age < T.associativity) : m.isAssociativity T = false := by
  rw [isAssociativity, beq_eq_false_iff_ne]
  exact h.ne

theorem getAge_ok (hA : T.associativity < 256) (h : m.age < T.associativity) :
    m.getAge T = .ok m.age := by
  rw [getAge, isAssociativity_eq_false h, Bool.not_false, assertThat_true, ok_bind,
    toWay_of_lt (by omega)]

theorem toUnsigned_pred {n : ℕ} (hpos : 1 ≤ n) (hn : n < 256) :
    toUnsigned (n + 2 ^ 32 - 1) = n - 1 := by
  unfold toUnsigned
  omega

/-- Ageing by one access either reaches the associativity or adds one. -/
theorem ageBy_one (hA : T.associativity < 256) (h : m.age < T.associativity) :
    m.ageBy T 1 = .ok (if m.age + 1 < T.associativity then { m with age := m.age + 1 }
      else ⟨T.associativity, []⟩) := by
  rw [ageBy, isAssociativity_eq_false h, Bool.not_false, assertThat_true, ok_bind,
    toUnsigned_pred (by omega) hA, toWay_of_lt hA]
  by_cases hlt : m.age + 1 < T.associativity
  · rw [if_neg (by omega), if_pos hlt, toWay_of_lt (by omega)]
  · rw [if_pos (by omega), if_neg hlt]

/-! ## Joins -/

/-- What a join keeps of one side: `extra` arrays are counted and paid for. -/
def Extends (u m : MustAge) : Prop :=
  ∃ extra : List GlobalVariable, m.age + extra.length ≤ u.age ∧
    ∀ r, u.arrayAccesses.count r ≤ m.arrayAccesses.count r + extra.count r

theorem joinIntersect_spec (hm : m.age < T.associativity) (hn : n.age < T.associativity) :
    ∃ u, m.joinIntersect T n = .ok u ∧ u.age < T.associativity ∧ Extends u m ∧ Extends u n ∧
      ∀ r, u.arrayAccesses.count r ≤ m.arrayAccesses.count r ∧
        u.arrayAccesses.count r ≤ n.arrayAccesses.count r := by
  have hcount (r : GlobalVariable) :
      (m.arrayAccesses.bagInter n.arrayAccesses).count r ≤ m.arrayAccesses.count r ∧
        (m.arrayAccesses.bagInter n.arrayAccesses).count r ≤ n.arrayAccesses.count r := by
    rw [List.count_bagInter]
    exact ⟨min_le_left _ _, min_le_right _ _⟩
  refine ⟨⟨max m.age n.age, m.arrayAccesses.bagInter n.arrayAccesses⟩, ?_, max_lt hm hn,
    ⟨[], le_max_left _ _, fun r => (hcount r).1⟩, ⟨[], le_max_right _ _, fun r => (hcount r).2⟩,
    hcount⟩
  simp [joinIntersect, isAssociativity_eq_false hm, isAssociativity_eq_false hn]

/-- One iteration passes elements of either side and pays for those on one side only. -/
theorem unionStep_spec (hA : T.associativity < 256) (xs ys : List GlobalVariable) (m : MustAge)
    {b : ℕ} (hm : m.age < T.associativity) (hb : b < T.associativity) :
    ∃ xs' ys' m' b', unionStep xs ys m b = (xs', ys', m', b') ∧
      m'.age ≤ T.associativity ∧ b' ≤ T.associativity ∧
      xs'.length + ys'.length ≤ xs.length + ys.length - 1 ∧
      ∃ inserted skipped : List GlobalVariable, m'.age = m.age + inserted.length ∧
        b' = b + skipped.length ∧
        (∀ r, m'.arrayAccesses.count r = m.arrayAccesses.count r + inserted.count r) ∧
        ∀ r, xs.count r + inserted.count r + ys'.count r =
          ys.count r + skipped.count r + xs'.count r := by
  have hinsert (y r : GlobalVariable) : (m.arrayAccesses.orderedInsert (· ≤ ·) y).count r =
      m.arrayAccesses.count r + [y].count r := by
    rw [(List.perm_orderedInsert (· ≤ ·) y m.arrayAccesses).count_eq, List.count_cons,
      List.count_singleton]
  cases xs with
  | nil =>
    cases ys with
    | nil => exact ⟨_, _, _, _, rfl, hm.le, hb.le, le_rfl, [], [], rfl, rfl, by simp, by simp⟩
    | cons y ys =>
      refine ⟨_, _, _, _, rfl, ?_, hb.le, by simp, [y], [], ?_, rfl, hinsert y, fun r => ?_⟩
      · rw [toWay_of_lt (by omega)]
        exact hm
      · exact toWay_of_lt (by omega)
      · simp only [List.count_cons, List.count_nil]
        omega
  | cons x xs =>
    cases ys with
    | nil =>
      refine ⟨_, _, _, _, rfl, hm.le, ?_, by simp, [], [x], rfl, ?_, by simp, fun r => ?_⟩
      · rw [toWay_of_lt (by omega)]
        exact hb
      · exact toWay_of_lt (by omega)
      · simp only [List.count_cons, List.count_nil]
        omega
    | cons y ys =>
      by_cases hxy : x < y
      · refine ⟨xs, y :: ys, m, toWay (b + 1), by simp only [unionStep, if_pos hxy], hm.le, ?_,
          by simp; omega, [], [x], rfl, ?_, by simp, fun r => ?_⟩
        · rw [toWay_of_lt (by omega)]
          exact hb
        · exact toWay_of_lt (by omega)
        · simp only [List.count_cons, List.count_nil]
          omega
      · by_cases hyx : y < x
        · refine ⟨x :: xs, ys, ⟨toWay (m.age + 1), m.arrayAccesses.orderedInsert (· ≤ ·) y⟩, b,
            by simp only [unionStep, if_neg hxy, if_pos hyx], ?_, hb.le, by simp, [y], [], ?_, rfl,
            hinsert y, fun r => ?_⟩
          · rw [toWay_of_lt (by omega)]
            exact hm
          · exact toWay_of_lt (by omega)
          · simp only [List.count_cons, List.count_nil]
            omega
        · obtain rfl : x = y := le_antisymm (Nat.le_of_not_lt hyx) (Nat.le_of_not_lt hxy)
          refine ⟨xs, ys, m, b, by simp only [unionStep, if_neg hxy], hm.le, hb.le,
            by simp, [], [], rfl, rfl, by simp, fun r => ?_⟩
          simp only [List.count_cons, List.count_nil]
          omega

/-- The whole walk: both sides reach a common multiset, or one of them the associativity. -/
theorem unionLoop_spec (hA : T.associativity < 256) (k : ℕ) :
    ∀ (xs ys : List GlobalVariable) (m : MustAge) (b : ℕ), xs.length + ys.length ≤ k →
      m.age < T.associativity → b < T.associativity →
      ∃ m' b', unionLoop T k xs ys m b = (m', b') ∧
        m'.age ≤ T.associativity ∧ b' ≤ T.associativity ∧
        ∃ inserted skipped : List GlobalVariable, m'.age = m.age + inserted.length ∧
          b' = b + skipped.length ∧
          (∀ r, m'.arrayAccesses.count r = m.arrayAccesses.count r + inserted.count r) ∧
          (m'.age < T.associativity → b' < T.associativity →
            ∀ r, xs.count r + inserted.count r = ys.count r + skipped.count r) := by
  induction k with
  | zero =>
    intro xs ys m b hlen hm hb
    have hxs : xs = [] := List.length_eq_zero_iff.mp (by omega)
    have hys : ys = [] := List.length_eq_zero_iff.mp (by omega)
    subst hxs hys
    exact ⟨m, b, rfl, hm.le, hb.le, [], [], rfl, rfl, by simp, by simp⟩
  | succ k ih =>
    intro xs ys m b hlen hm hb
    obtain ⟨xs₁, ys₁, m₁, b₁, hstep, hm₁, hb₁, hlen₁, ins, skip, hage, hadj, hcount, hpass⟩ :=
      unionStep_spec hA xs ys m hm hb
    rw [unionLoop, hstep]
    dsimp only
    by_cases hbreak : m₁.age = T.associativity ∨ b₁ = T.associativity
    · rw [if_pos hbreak]
      refine ⟨m₁, b₁, rfl, hm₁, hb₁, ins, skip, hage, hadj, hcount, fun hmlt hblt => ?_⟩
      exact absurd hbreak (by omega)
    · rw [if_neg hbreak]
      obtain ⟨m₂, b₂, hloop, hm₂, hb₂, ins₂, skip₂, hage₂, hadj₂, hcount₂, hpass₂⟩ :=
        ih xs₁ ys₁ m₁ b₁ (by omega) (by omega) (by omega)
      refine ⟨m₂, b₂, hloop, hm₂, hb₂, ins ++ ins₂, skip ++ skip₂, ?_, ?_, fun r => ?_,
        fun hmlt hblt r => ?_⟩
      · rw [hage₂, hage, List.length_append, Nat.add_assoc]
      · rw [hadj₂, hadj, List.length_append, Nat.add_assoc]
      · rw [hcount₂, hcount, List.count_append, Nat.add_assoc]
      · have h₁ := hpass r
        have h₂ := hpass₂ hmlt hblt r
        simp only [List.count_append]
        omega

theorem joinUnion_spec (hA : T.associativity < 256) (hm : m.age < T.associativity)
    (hn : n.age < T.associativity) :
    ∃ u, m.joinUnion T n = .ok u ∧ u.age ≤ T.associativity ∧
      (u.age < T.associativity → Extends u m ∧ Extends u n) := by
  obtain ⟨m', b', hloop, hm', hb', ins, skip, hage, hadj, hcount, hpass⟩ := unionLoop_spec hA _
    m.arrayAccesses n.arrayAccesses m n.age le_rfl hm hn
  refine ⟨_, by rw [joinUnion, getAge_ok hA hn, ok_bind, hloop], max_le hm' hb', fun hlt => ?_⟩
  dsimp only at hlt ⊢
  rw [if_neg hlt.ne]
  have hpass := hpass ((le_max_left _ _).trans_lt hlt) ((le_max_right _ _).trans_lt hlt)
  refine ⟨⟨ins, ?_, fun r => (hcount r).le⟩, ⟨skip, ?_, fun r => ?_⟩⟩
  · rw [← hage]
    exact le_max_left _ _
  · rw [← hadj]
    exact le_max_right _ _
  · rw [hcount, hpass]

/-- Both kinds of joins keep what either side accounts for, unless the line may be evicted. -/
theorem join_spec (hA : T.associativity < 256) (kind : ArrayMustAnaType)
    (hm : m.age < T.associativity) (hn : n.age < T.associativity) :
    ∃ u, m.join T kind n = .ok u ∧ u.age ≤ T.associativity ∧
      (u.age < T.associativity → Extends u m ∧ Extends u n ∧
        (kind = .conflictSetIntersect → ∀ r,
          u.arrayAccesses.count r ≤ m.arrayAccesses.count r ∧
          u.arrayAccesses.count r ≤ n.arrayAccesses.count r)) := by
  cases kind with
  | conflictSetIntersect =>
    obtain ⟨u, hu, hage, hleft, hright, hcount⟩ := joinIntersect_spec hm hn
    exact ⟨u, hu, hage.le, fun _ => ⟨hleft, hright, fun _ => hcount⟩⟩
  | conflictSetUnion =>
    obtain ⟨u, hu, hage, hext⟩ := joinUnion_spec hA hm hn
    refine ⟨u, hu, hage, fun hlt => ⟨(hext hlt).1, (hext hlt).2, fun hkind => ?_⟩⟩
    cases hkind

end MustAge

namespace LruMaxAgeArrayAwareCache

variable {T : CacheTraits} {P : StaticAddressProvider} {m : MustAge}

/-! ## Single entries -/

/-- An entry that stays after an access which may touch `array`, or anything. -/
def AgedPotentially (T : CacheTraits) (P : StaticAddressProvider) (m m' : MustAge) :
    Option GlobalVariable → Prop
  | none => m'.age = m.age + 1 ∧ ∀ r, m'.arrayAccesses.count r = m.arrayAccesses.count r
  | some arr =>
    (m'.age = m.age + 1 ∧ ∀ r, m'.arrayAccesses.count r =
      m.arrayAccesses.count r + if r = arr then 1 else 0) ∨
    (m' = m ∧ getPerSetSize T P arr ≤ m.arrayAccesses.count arr)

theorem keepCached_eq_some {m' : MustAge} (h : keepCached T m = some m') :
    m' = m ∧ m.age ≠ T.associativity := by
  unfold keepCached MustAge.isAssociativity at h
  split_ifs at h with hassoc
  cases h
  exact ⟨rfl, fun heq => hassoc (by simp [heq])⟩

/-- An entry that stays when it is aged by one has grown by one. -/
theorem keepCached_ageBy {n : MustAge} (h : keepCached T (if m.age + 1 < T.associativity
    then { m with age := m.age + 1 } else ⟨T.associativity, []⟩) = some n) :
    n = { m with age := m.age + 1 } ∧ n.age < T.associativity := by
  obtain ⟨hn, hne⟩ := keepCached_eq_some h
  split_ifs at hn hne with hlt
  · subst n
    exact ⟨rfl, hlt⟩
  · exact absurd rfl hne

theorem agePotentially_spec (hA : T.associativity < 256) (array : Option GlobalVariable)
    (h : m.age < T.associativity) :
    ∃ o, agePotentially T P array m = .ok o ∧ ∀ m', o = some m' →
      m'.age < T.associativity ∧ AgedPotentially T P m m' array := by
  unfold agePotentially
  cases array with
  | none =>
    dsimp only
    rw [MustAge.ageBy_one hA h, ok_bind]
    refine ⟨_, rfl, fun m' hm' => ?_⟩
    obtain ⟨rfl, hlt⟩ := keepCached_ageBy hm'
    exact ⟨hlt, rfl, fun _ => rfl⟩
  | some arr =>
    dsimp only
    unfold MustAge.ageByArray
    split_ifs with hcount
    · rw [MustAge.ageBy_one hA (by exact h), ok_bind]
      refine ⟨_, rfl, fun m' hm' => ?_⟩
      obtain ⟨rfl, hlt⟩ := keepCached_ageBy hm'
      refine ⟨hlt, .inl ⟨rfl, fun r => ?_⟩⟩
      rw [(List.perm_orderedInsert (· ≤ ·) arr m.arrayAccesses).count_eq, List.count_cons]
      by_cases hr : r = arr
      · subst r
        simp
      · simp [hr, Ne.symm hr]
    · rw [ok_bind]
      refine ⟨_, rfl, fun m' hm' => ?_⟩
      obtain ⟨rfl, _⟩ := keepCached_eq_some hm'
      exact ⟨h, .inr ⟨rfl, Nat.le_of_not_lt hcount⟩⟩

/-- An entry that stays after an access to an entry of a given age. -/
def AgedYounger (accessedAge : ℕ) (m m' : MustAge) : Prop :=
  m'.arrayAccesses = m.arrayAccesses ∧
    (m'.age = m.age ∧ accessedAge ≤ m.age ∨ m'.age = m.age + 1 ∧ m.age < accessedAge)

theorem ageYounger_spec (hA : T.associativity < 256) (accessedAge : ℕ)
    (h : m.age < T.associativity) :
    ∃ o, ageYounger T accessedAge m = .ok o ∧ ∀ m', o = some m' →
      m'.age < T.associativity ∧ AgedYounger accessedAge m m' := by
  unfold ageYounger
  rw [MustAge.getAge_ok hA h, ok_bind]
  split_ifs with hle
  · refine ⟨_, rfl, fun m' hm' => ?_⟩
    cases hm'
    exact ⟨h, rfl, .inl ⟨rfl, hle⟩⟩
  · rw [MustAge.ageBy_one hA h, ok_bind]
    refine ⟨_, rfl, fun m' hm' => ?_⟩
    obtain ⟨rfl, hlt⟩ := keepCached_ageBy hm'
    exact ⟨hlt, rfl, .inr ⟨rfl, Nat.lt_of_not_le hle⟩⟩

/-! ## Maps of entries -/

/-- The entries are in the order of their tags, and none of them may have been evicted. -/
structure WellFormed (T : CacheTraits) (l : List (ℕ × MustAge)) : Prop where
  sorted : (l.map Prod.fst).Pairwise (· < ·)
  age_lt : ∀ e ∈ l, e.2.age < T.associativity

theorem WellFormed.unique {l : List (ℕ × MustAge)} (h : WellFormed T l) {tag : ℕ} {m n : MustAge}
    (hm : (tag, m) ∈ l) (hn : (tag, n) ∈ l) : m = n := by
  have hnodup : (l.map Prod.fst).Nodup := h.sorted.imp fun hlt => hlt.ne
  have heq := List.inj_on_of_nodup_map hnodup hm hn rfl
  exact (Prod.mk.inj heq).2

theorem find?_eq_some {s : LruMaxAgeArrayAwareCache} (h : WellFormed T s.ages) {tag : ℕ}
    {m : MustAge} : s.find? tag = some m ↔ (tag, m) ∈ s.ages := by
  unfold find?
  constructor
  · intro hfind
    obtain ⟨⟨t, n⟩, hsome, rfl⟩ := Option.map_eq_some_iff.mp hfind
    have htag := List.find?_some hsome
    rw [beq_iff_eq] at htag
    subst htag
    exact List.mem_of_find?_eq_some hsome
  · intro hmem
    cases hfind : s.ages.find? fun e => e.1 == tag with
    | none =>
      have := List.find?_eq_none.mp hfind _ hmem
      simp at this
    | some e =>
      obtain ⟨t, n⟩ := e
      have htag := List.find?_some hfind
      rw [beq_iff_eq] at htag
      subst htag
      rw [Option.map_some, h.unique hmem (List.mem_of_find?_eq_some hfind)]

/-- The loop over the entries keeps an aged entry for each one that stays. -/
theorem ageEntries_spec {f : MustAge → Except Fault (Option MustAge)} {R : MustAge → MustAge → Prop}
    {l : List (ℕ × MustAge)} (hf : ∀ e ∈ l, ∃ o, f e.2 = .ok o ∧ ∀ m', o = some m' → R e.2 m') :
    ∃ kept evicted, ageEntries f l = .ok (kept, evicted) ∧
      (kept.map Prod.fst).Sublist (l.map Prod.fst) ∧
      ∀ tag m', (tag, m') ∈ kept → ∃ m, (tag, m) ∈ l ∧ R m m' := by
  induction l with
  | nil => exact ⟨[], [], rfl, .refl _, fun _ _ h => absurd h List.not_mem_nil⟩
  | cons e l ih =>
    obtain ⟨tag, m⟩ := e
    obtain ⟨o, ho, hR⟩ := hf _ List.mem_cons_self
    obtain ⟨kept, evicted, heq, hsub, hmem⟩ := ih fun e he => hf e (List.mem_cons_of_mem _ he)
    rw [ageEntries, ho, ok_bind, heq, ok_bind]
    dsimp only
    cases o with
    | none =>
      refine ⟨kept, tag :: evicted, rfl, hsub.cons _, fun t m' hm' => ?_⟩
      obtain ⟨n, hn, hRn⟩ := hmem t m' hm'
      exact ⟨n, List.mem_cons_of_mem _ hn, hRn⟩
    | some m₁ =>
      refine ⟨(tag, m₁) :: kept, evicted, rfl, hsub.cons_cons _, fun t m' hm' => ?_⟩
      rcases List.mem_cons.mp hm' with heq | hm'
      · cases heq
        exact ⟨m, List.mem_cons_self, hR m₁ rfl⟩
      · obtain ⟨n, hn, hRn⟩ := hmem t m' hm'
        exact ⟨n, List.mem_cons_of_mem _ hn, hRn⟩

/-- Assigning a tag adds its entry in order and leaves all others. -/
theorem assign_spec (tag : ℕ) (m : MustAge) {l : List (ℕ × MustAge)}
    (h : (l.map Prod.fst).Pairwise (· < ·)) :
    ((assign tag m l).map Prod.fst).Pairwise (· < ·) ∧
      ∀ e, e ∈ assign tag m l ↔ e = (tag, m) ∨ e.1 ≠ tag ∧ e ∈ l := by
  induction l with
  | nil => simp [assign]
  | cons e l ih =>
    obtain ⟨t, n⟩ := e
    rw [List.map_cons, List.pairwise_cons] at h
    obtain ⟨ihsorted, ihmem⟩ := ih h.2
    have hrest {e : ℕ × MustAge} (he : e ∈ l) : t < e.1 := h.1 e.1 (List.mem_map_of_mem he)
    unfold assign
    split_ifs with hlt heq
    · refine ⟨?_, fun e => ?_⟩
      · rw [List.map_cons, List.map_cons, List.pairwise_cons, List.pairwise_cons]
        refine ⟨fun u hu => ?_, h⟩
        rcases List.mem_cons.mp hu with rfl | hu
        · exact hlt
        · exact hlt.trans (h.1 u hu)
      · rw [List.mem_cons]
        apply or_congr_right
        constructor
        · intro he
          refine ⟨?_, he⟩
          rcases List.mem_cons.mp he with rfl | hel
          · exact hlt.ne'
          · exact (hlt.trans (hrest hel)).ne'
        · exact And.right
    · subst heq
      refine ⟨by simpa using h, fun e => ?_⟩
      rw [List.mem_cons, List.mem_cons]
      apply or_congr_right
      constructor
      · intro he
        exact ⟨(hrest he).ne', .inr he⟩
      · rintro ⟨hne, rfl | he⟩
        · exact absurd rfl hne
        · exact he
    · refine ⟨?_, fun e => ?_⟩
      · rw [List.map_cons, List.pairwise_cons]
        refine ⟨fun u hu => ?_, ihsorted⟩
        obtain ⟨e, he, rfl⟩ := List.mem_map.mp hu
        rcases (ihmem e).mp he with rfl | ⟨_, he⟩
        · dsimp only
          omega
        · exact hrest he
      · rw [List.mem_cons, List.mem_cons, ihmem]
        constructor
        · rintro (rfl | rfl | ⟨hne, he⟩)
          · exact .inr ⟨Ne.symm heq, .inl rfl⟩
          · exact .inl rfl
          · exact .inr ⟨hne, .inr he⟩
        · rintro (rfl | ⟨hne, rfl | he⟩)
          · exact .inr (.inl rfl)
          · exact .inl rfl
          · exact .inr (.inr ⟨hne, he⟩)

/-- What the join of two entries keeps of both. -/
def Joined (kind : ArrayMustAnaType) (m n u : MustAge) : Prop :=
  u.Extends m ∧ u.Extends n ∧ (kind = .conflictSetIntersect → ∀ r,
    u.arrayAccesses.count r ≤ m.arrayAccesses.count r ∧
    u.arrayAccesses.count r ≤ n.arrayAccesses.count r)

/-- The join keeps common tags only. -/
theorem joinEntries_spec (hA : T.associativity < 256) (kind : ArrayMustAnaType)
    (xs ys : List (ℕ × MustAge)) (hx : ∀ e ∈ xs, e.2.age < T.associativity)
    (hy : ∀ e ∈ ys, e.2.age < T.associativity) :
    ∃ l, joinEntries T kind xs ys = .ok l ∧ (l.map Prod.fst).Sublist (xs.map Prod.fst) ∧
      ∀ tag u, (tag, u) ∈ l → u.age < T.associativity ∧
        ∃ m n, (tag, m) ∈ xs ∧ (tag, n) ∈ ys ∧ Joined kind m n u := by
  fun_induction joinEntries T kind xs ys with
  | case1 => exact ⟨[], rfl, .refl _, fun _ _ h => absurd h List.not_mem_nil⟩
  | case2 => exact ⟨[], rfl, List.nil_sublist _, fun _ _ h => absurd h List.not_mem_nil⟩
  | case3 t m xs u n ys hlt ih =>
    obtain ⟨l, hl, hsub, hmem⟩ := ih (fun e he => hx e (List.mem_cons_of_mem _ he)) hy
    refine ⟨l, hl, hsub.cons _, fun tag v hv => ?_⟩
    obtain ⟨hage, m', n', hm', hn', hjoin⟩ := hmem tag v hv
    exact ⟨hage, m', n', List.mem_cons_of_mem _ hm', hn', hjoin⟩
  | case4 t m xs u n ys _ hlt ih =>
    obtain ⟨l, hl, hsub, hmem⟩ := ih hx fun e he => hy e (List.mem_cons_of_mem _ he)
    refine ⟨l, hl, hsub, fun tag v hv => ?_⟩
    obtain ⟨hage, m', n', hm', hn', hjoin⟩ := hmem tag v hv
    exact ⟨hage, m', n', hm', List.mem_cons_of_mem _ hn', hjoin⟩
  | case5 t m xs u n ys hnlt hngt ih =>
    obtain rfl : t = u := by omega
    obtain ⟨v, hv, hle, hext⟩ := MustAge.join_spec hA kind (hx _ List.mem_cons_self)
      (hy _ List.mem_cons_self)
    obtain ⟨l, hl, hsub, hmem⟩ := ih (fun e he => hx e (List.mem_cons_of_mem _ he))
      fun e he => hy e (List.mem_cons_of_mem _ he)
    have hrest {tag : ℕ} {w : MustAge} (hw : (tag, w) ∈ l) : w.age < T.associativity ∧
        ∃ m' n', (tag, m') ∈ (t, m) :: xs ∧ (tag, n') ∈ (t, n) :: ys ∧ Joined kind m' n' w := by
      obtain ⟨hage, m', n', hm', hn', hjoin⟩ := hmem tag w hw
      exact ⟨hage, m', n', List.mem_cons_of_mem _ hm', List.mem_cons_of_mem _ hn', hjoin⟩
    rw [hv, ok_bind, hl, ok_bind]
    by_cases hassoc : v.isAssociativity T = true
    · rw [if_pos hassoc]
      exact ⟨l, rfl, hsub.cons _, fun tag w hw => hrest hw⟩
    · rw [if_neg hassoc]
      have hlt : v.age < T.associativity := by
        apply lt_of_le_of_ne hle
        intro heq
        exact hassoc (by simp [MustAge.isAssociativity, heq])
      refine ⟨(t, v) :: l, rfl, hsub.cons_cons _, fun tag w hw => ?_⟩
      rcases List.mem_cons.mp hw with heq | hw
      · cases heq
        exact ⟨hlt, m, n, List.mem_cons_self, List.mem_cons_self, hext hlt⟩
      · exact hrest hw

end LruMaxAgeArrayAwareCache

end Llvmta
