import Llvmta.Memory.LruMaxAgeEntries

/-!
# The operations of the must analysis on well-formed states

Each operation succeeds on a well-formed state and leads to a well-formed one.
For `update` there are three cases, by whether the tag has an entry and whether
a hit is assumed. They have in common that the accessed entry moves to the
front, the entries younger than the accessed age are aged by one and those that
reach age `ASSOCIATIVITY` are gone; `effectiveAge` and `Aged` say this once.
-/

namespace Llvmta

open Checked AgedTag

namespace LruMaxAgeAbstractCache

variable {T : CacheTraits} {s : LruMaxAgeAbstractCache} {l : List AgedTag}

/-- At most `i + 1` entries have an age of at most `i`. -/
def Counting (l : List AgedTag) : Prop := ∀ i, l.countP (fun e => e.age ≤ i) ≤ i + 1

/-- The age an access to `tag` is known to have, `ASSOCIATIVITY` for a miss. -/
def effectiveAge (T : CacheTraits) (assumption : Classification) (tag : ℕ) (l : List AgedTag) :
    ℕ :=
  match l.find? fun e => e.tag = tag with
  | some e => e.age
  | none => if assumesHit T assumption then T.associativity - 1 else T.associativity

theorem effectiveAge_of_mem (assumption : Classification) (hd : Distinct l) {e : AgedTag}
    (he : e ∈ l) : effectiveAge T assumption e.tag l = e.age := by
  simp only [effectiveAge, hd.find?_tag he]

theorem effectiveAge_of_absent {assumption : Classification} {tag : ℕ}
    (hne : ∀ e ∈ l, e.tag ≠ tag) : effectiveAge T assumption tag l =
      if assumesHit T assumption then T.associativity - 1 else T.associativity := by
  simp only [effectiveAge, find?_tag_none hne]

/-- An entry of `l` other than `tag`, aged by an access of age `a` and still cached. -/
def Aged (A a tag : ℕ) (l : List AgedTag) (e : AgedTag) : Prop :=
  ∃ f ∈ l, f.tag ≠ tag ∧ e = bump a f ∧ e.age < A

/-! ## Well-formed results -/

/-- An access keeps the entries well formed. -/
theorem wellFormed_touched {A a tag : ℕ} {p r : List AgedTag} (hA : A < 256) (hA0 : 0 < A)
    (hp : Sorted p) (hpa : ∀ e ∈ p, e.age ≤ a) (hr : Sorted r) (hra : ∀ e ∈ r, a ≤ e.age)
    (hd : Distinct (p ++ r)) (htag : ∀ e ∈ p ++ r, e.tag ≠ tag)
    (hpos : ∀ e ∈ p ++ r, 0 < a ∨ 0 < e.age) (hlt : ∀ e ∈ p, (bump a e).age < A)
    (hrlt : ∀ e ∈ r, e.age < A) : WellFormed A (touched a tag p r) := by
  have hd' : Distinct (p.map (bump a) ++ r) := by
    unfold Distinct at *
    rwa [List.map_append, map_tag_map_bump, ← List.map_append]
  have hages : (p.map (bump a)).Pairwise fun e f => e.age ≤ f.age :=
    List.pairwise_map.mpr (hp.imp fun h => bump_age_mono a h.age_le)
  have hcross : ∀ e ∈ p.map (bump a), ∀ f ∈ r, e.age ≤ f.age := by
    intro e he f hf
    obtain ⟨g, hg, rfl⟩ := List.mem_map.mp he
    exact (bump_age_le (hpa g hg)).trans (hra f hf)
  have hmem : ∀ e ∈ mergeAll (p.map (bump a)) r, e.tag ≠ tag ∧ 0 < e.age ∧ e.age < A := by
    intro e he
    rcases mem_mergeAll.mp he with he | he
    · obtain ⟨g, hg, rfl⟩ := List.mem_map.mp he
      refine ⟨htag g (by simp [hg]), ?_, hlt g hg⟩
      have := hpos g (by simp [hg])
      unfold bump
      dsimp only
      split_ifs <;> omega
    · have := hpos e (by simp [he])
      have := hra e he
      exact ⟨htag e (by simp [he]), by omega, hrlt e he⟩
  refine ⟨?_, ?_, ?_, .inl hA⟩
  · refine sorted_cons.mpr ⟨?_, sorted_mergeAll hages hr hcross hd'⟩
    intro e he
    exact .inl (hmem e he).2.1
  · exact distinct_cons.mpr ⟨fun e he => (hmem e he).1, hd'.perm (mergeAll_perm _ _).symm⟩
  · intro e he
    rcases List.mem_cons.mp he with rfl | he
    · exact hA0
    · exact (hmem e he).2.2

theorem Counting.length_le {A : ℕ} (h : Counting l) (hl : ∀ e ∈ l, e.age < A) : l.length ≤ A := by
  cases A with
  | zero =>
    cases l with
    | nil => exact le_rfl
    | cons e l => exact absurd (hl e List.mem_cons_self) (Nat.not_lt_zero _)
  | succ A =>
    have hcount : l.countP (fun e => e.age ≤ A) = l.length :=
      List.countP_eq_length.mpr fun e he => decide_eq_true (Nat.lt_succ_iff.mp (hl e he))
    exact hcount ▸ h A

/-- Evicting the oldest entries frees a way. -/
theorem Counting.survivors_lt {A : ℕ} (hA : 0 < A) (h : Counting l) (hl : ∀ e ∈ l, e.age < A) :
    (survivors A l).length < A := by
  have hsub : Counting (survivors A l) := fun i =>
    (List.filter_sublist.countP_le).trans (h i)
  have hage : ∀ e ∈ survivors A l, e.age < A - 1 := by
    intro e he
    obtain ⟨hel, hne⟩ := List.mem_filter.mp he
    have := hl e hel
    have : e.age ≠ A - 1 := by simpa using hne
    omega
  have := hsub.length_le hage
  omega

theorem Counting.eq_of_age_zero (h : Counting l) {p r : List AgedTag} {e f : AgedTag}
    (hl : l = p ++ e :: r) (hf : f ∈ p ++ r) (he : e.age = 0) : 0 < f.age := by
  by_contra hf0
  have hf0 : f.age = 0 := by omega
  have hle := h 0
  rw [hl, List.countP_append, List.countP_cons] at hle
  have hone : 1 ≤ p.countP (fun e => e.age ≤ 0) + r.countP (fun e => e.age ≤ 0) := by
    rw [← List.countP_append]
    exact List.countP_pos_iff.mpr ⟨f, hf, by simp [hf0]⟩
  simp only [he, le_refl, decide_true, if_true] at hle
  omega

/-! ## update -/

theorem update_found {p r : List AgedTag} {e : AgedTag} (hs : Holds T.associativity s (p ++ e :: r))
    (hw : WellFormed T.associativity (p ++ e :: r)) (wantReport : Bool)
    (assumption : Classification) :
    ∃ s', update T s e.tag wantReport assumption = .ok (s', reportOf wantReport []) ∧
      Holds T.associativity s' (touched e.age e.tag p r) := by
  have hA : T.associativity < 256 := hw.small.resolve_right (by simp)
  have he := hw.age_lt e (by simp)
  obtain ⟨hsp, _, hpe⟩ := hw.sorted.append
  have hre := (sorted_cons.mp hw.sorted.append.2.1).1
  have hne : ∀ f ∈ p, f.tag ≠ e.tag := by
    have hperm : (p ++ e :: r).Perm (e :: (p ++ r)) := List.perm_middle
    exact fun f hf => (distinct_cons.mp (hw.distinct.perm hperm)).1 f (by simp [hf])
  obtain ⟨u, ht, _⟩ := hs.tags_eq
  obtain ⟨v, ha, _⟩ := hs.ages_eq
  have hsize : s.size = p.length + (r.length + 1) := by rw [hs.size_eq]; simp
  have hsearch : search s.tags e.tag s.size = .ok p.length := by
    rw [ht, hsize]
    simpa using search_found hne (r.map AgedTag.tag ++ u) r.length
  have hage : ageAt T s p.length = .ok e.age := by
    unfold ageAt
    rw [if_pos (by omega), ha]
    simpa using read_append (p.map age) (r.map age ++ v) e.age (i := p.length) (by simp)
  have hroom : makeRoom T s p.length e.age assumption = .ok (e.age, p.length, s, []) := by
    unfold makeRoom
    rw [if_neg he.ne]
  have hm : Mergeable e.age p r :=
    .of_sorted hsp (fun f hf => (hpe f hf e (by simp)).age_le) fun f hf => (hre f hf).age_le
  obtain ⟨s', hins, hs'⟩ := insertFront_eq hs.gap (he.trans hA) hm e.tag
  refine ⟨s', ?_, hs'⟩
  simp only [update, hsearch, hage, hroom, hins, ok_bind]

/-- The first half of an update of a tag without an entry. -/
theorem search_of_absent (hs : Holds T.associativity s l) {tag : ℕ} (hne : ∀ e ∈ l, e.tag ≠ tag)
    (hA : T.associativity < 256) :
    search s.tags tag s.size = .ok l.length ∧
      ageAt T s l.length = .ok T.associativity := by
  obtain ⟨u, ht, _⟩ := hs.tags_eq
  constructor
  · rw [ht, hs.size_eq]
    exact search_absent hne u
  · unfold ageAt
    rw [hs.size_eq, if_neg (lt_irrefl _), toWay_of_lt hA]

theorem update_absent_hit (hs : Holds T.associativity s l) (hw : WellFormed T.associativity l)
    (hA : T.associativity < 256) {tag : ℕ} (hne : ∀ e ∈ l, e.tag ≠ tag)
    (hlen : l.length < T.associativity) (wantReport : Bool) {assumption : Classification}
    (hhit : assumesHit T assumption = true) :
    ∃ s', update T s tag wantReport assumption = .ok (s', reportOf wantReport []) ∧
      Holds T.associativity s' (touched (T.associativity - 1) tag l []) := by
  obtain ⟨hsearch, hage⟩ := search_of_absent hs hne hA
  have hsize : toWay (s.size + 1) = l.length + 1 := by
    rw [hs.size_eq]
    exact toWay_of_lt (by omega)
  have hroom : makeRoom T s l.length T.associativity assumption =
      .ok (T.associativity - 1, l.length, { s with size := l.length + 1 }, []) := by
    have hw' : toWay (T.associativity - 1) = T.associativity - 1 := toWay_of_lt (by omega)
    have hle : l.length + 1 ≤ T.associativity := hlen
    simp [makeRoom, hhit, hsize, hle, hw']
  have hm : Mergeable (T.associativity - 1) l [] :=
    .of_sorted hw.sorted (fun f hf => by have := hw.age_lt f hf; omega) (by simp)
  have hgap : Gap T.associativity { s with size := l.length + 1 } l [] :=
    Holds.gap_end (q := []) (by simpa using hs) hlen
  obtain ⟨s', hins, hs'⟩ := insertFront_eq hgap (by omega) hm tag
  refine ⟨s', ?_, hs'⟩
  simp only [update, hsearch, hage, hroom, hins, ok_bind]

theorem update_absent (hs : Holds T.associativity s l) (hw : WellFormed T.associativity l)
    (hA : T.associativity < 256) {tag : ℕ} (hne : ∀ e ∈ l, e.tag ≠ tag)
    (hlen : (survivors T.associativity l).length < T.associativity) (wantReport : Bool)
    {assumption : Classification} (hhit : assumesHit T assumption = false) :
    ∃ s', update T s tag wantReport assumption =
        .ok (s', reportOf wantReport ((oldest T.associativity l).map AgedTag.tag)) ∧
      Holds T.associativity s' (touched T.associativity tag (survivors T.associativity l) []) := by
  obtain ⟨hsearch, hage⟩ := search_of_absent hs hne hA
  have hl := survivors_append_oldest hw.sorted hw.age_lt
  have hs' : Holds T.associativity s (survivors T.associativity l ++ oldest T.associativity l) :=
    hl.symm ▸ hs
  have hevict : evictOldest T.associativity l.length { s with size := toWay (s.size + 1) } [] =
      .ok ((survivors T.associativity l).length,
        { s with size := (survivors T.associativity l).length + 1 },
        (oldest T.associativity l).map AgedTag.tag) := by
    obtain ⟨u, ht, _⟩ := hs'.tags_eq
    obtain ⟨v, ha, _⟩ := hs'.ages_eq
    have hcount : l.length =
        (survivors T.associativity l).length + (oldest T.associativity l).length := by
      rw [← List.length_append, hl]
    have hev := evictOldest_eq (A := T.associativity) (p := survivors T.associativity l)
      (q := oldest T.associativity l) (fun e he => by simpa using (List.mem_filter.mp he).2)
      (fun e he => by simpa using (List.mem_filter.mp he).2)
      (s := { s with size := toWay (s.size + 1) }) ht ha
      (n := (survivors T.associativity l).length + 1) (by omega)
      (by dsimp only; rw [hs.size_eq, hcount]; congr 1; omega) []
    rw [hcount, hev, List.append_nil]
  have hroom : makeRoom T s l.length T.associativity assumption =
      .ok (T.associativity, (survivors T.associativity l).length,
        { s with size := (survivors T.associativity l).length + 1 },
        (oldest T.associativity l).map AgedTag.tag) := by
    simp [makeRoom, hhit, hevict]
  have hmem : ∀ e ∈ survivors T.associativity l, e ∈ l := fun e he => (List.mem_filter.mp he).1
  have hm : Mergeable T.associativity (survivors T.associativity l) [] :=
    .of_sorted (hw.sorted.filter _) (fun f hf => (hw.age_lt f (hmem f hf)).le) (by simp)
  obtain ⟨s'', hins, hs''⟩ := insertFront_eq (hs'.gap_end hlen) hA hm tag
  refine ⟨s'', ?_, hs''⟩
  simp only [update, hsearch, hage, hroom, hins, ok_bind]

/-- Ways that do not fit the fields of the state are never taken into account. -/
theorem update_wide (hs : Holds T.associativity s []) (hA : 256 ≤ T.associativity) (tag : ℕ)
    (wantReport : Bool) (assumption : Classification) :
    ∃ s', update T s tag wantReport assumption = .ok (s', reportOf wantReport []) ∧
      Holds T.associativity s' [] := by
  obtain ⟨hsize, ⟨u, ht, hu⟩, ⟨v, ha, hv⟩⟩ := hs
  obtain ⟨tags, ages, size⟩ := s
  simp only [List.map_nil, List.nil_append, List.length_nil, Nat.zero_add] at hsize ht ha hu hv
  subst hsize ht ha
  have hne : toWay T.associativity ≠ T.associativity := by
    have := toWay_lt T.associativity
    omega
  have hone : 1 < T.associativity := by omega
  have hwt : write tags 0 tag = .ok (tags.set 0 tag) := write_of_lt (by omega) tag
  have hwa : write ages 0 0 = .ok (ages.set 0 0) := write_of_lt (by omega) 0
  refine ⟨⟨tags.set 0 tag, ages.set 0 0, 0⟩, ?_, ?_⟩
  · simp [update, search, findIndex, ageAt, makeRoom, hne, insertFront, shiftEntries, hone, shiftRight, hwt,
      hwa]
  · exact ⟨rfl, ⟨_, rfl, by simpa using hu⟩, ⟨_, rfl, by simpa using hv⟩⟩

/-- What `update` makes of the entries `l`. -/
structure Updated (T : CacheTraits) (a tag : ℕ) (l l' : List AgedTag) : Prop where
  wellFormed : WellFormed T.associativity l'
  mem : ∀ e ∈ l', e = ⟨tag, 0⟩ ∨ Aged T.associativity a tag l e
  of_mem : T.associativity < 256 → ∀ e, e = ⟨tag, 0⟩ ∨ Aged T.associativity a tag l e → e ∈ l'

theorem updated_of_found {p r : List AgedTag} {e : AgedTag}
    (hw : WellFormed T.associativity (p ++ e :: r)) (hc : Counting (p ++ e :: r)) :
    Updated T e.age e.tag (p ++ e :: r) (touched e.age e.tag p r) := by
  have hA : T.associativity < 256 := hw.small.resolve_right (by simp)
  have he := hw.age_lt e (by simp)
  obtain ⟨hsp, hse, hpe⟩ := hw.sorted.append
  obtain ⟨hre, hsr⟩ := sorted_cons.mp hse
  have hpa : ∀ f ∈ p, f.age ≤ e.age := fun f hf => (hpe f hf e (by simp)).age_le
  have hra : ∀ f ∈ r, e.age ≤ f.age := fun f hf => (hre f hf).age_le
  have hrb : ∀ f ∈ r, bump e.age f = f := by
    intro f hf
    have := hra f hf
    simp [bump, Nat.not_lt.mpr this]
  obtain ⟨hne, hd⟩ := distinct_cons.mp (hw.distinct.perm List.perm_middle)
  refine ⟨?_, ?_, ?_⟩
  · refine wellFormed_touched hA (by omega) hsp hpa hsr hra hd hne ?_ ?_ ?_
    · intro f hf
      by_cases h0 : e.age = 0
      · exact .inr (hc.eq_of_age_zero rfl hf h0)
      · exact .inl (by omega)
    · exact fun f hf => (bump_age_le (hpa f hf)).trans_lt he
    · exact fun f hf => hw.age_lt f (by simp [hf])
  · intro g hg
    rcases mem_touched.mp hg with rfl | ⟨f, hf, rfl⟩ | hg
    · exact .inl rfl
    · exact .inr ⟨f, by simp [hf], hne f (by simp [hf]), rfl, (bump_age_le (hpa f hf)).trans_lt he⟩
    · exact .inr ⟨g, by simp [hg], hne g (by simp [hg]), (hrb g hg).symm,
        hw.age_lt g (by simp [hg])⟩
  · rintro _ g (rfl | ⟨f, hf, hft, rfl, _⟩)
    · exact mem_touched.mpr (.inl rfl)
    · rcases List.mem_append.mp hf with hf | hf
      · exact mem_touched.mpr (.inr (.inl ⟨f, hf, rfl⟩))
      · rcases List.mem_cons.mp hf with rfl | hf
        · exact absurd rfl hft
        · exact mem_touched.mpr (.inr (.inr (by rwa [hrb f hf])))

/-- The entries `p` are those of `l` that an access of age `a` to a tag without
an entry leaves in the set. -/
theorem updated_of_absent {a tag : ℕ} {p : List AgedTag} (hA : T.associativity < 256)
    (hA0 : 0 < T.associativity) (hw : WellFormed T.associativity l)
    (hne : ∀ e ∈ l, e.tag ≠ tag) (hp : p.Sublist l) (ha : ∀ e ∈ p, e.age ≤ a)
    (hpos : ∀ e ∈ p, 0 < a ∨ 0 < e.age)
    (hmem : ∀ e ∈ l, e ∈ p ↔ (bump a e).age < T.associativity) :
    Updated T a tag l (touched a tag p []) := by
  have hpl : ∀ e ∈ p, e ∈ l := fun e he => hp.subset he
  refine ⟨?_, ?_, ?_⟩
  · refine wellFormed_touched hA hA0 (List.Pairwise.sublist hp hw.sorted) ha Sorted.nil (by simp)
      (by simpa using hw.distinct.sublist hp) (by simpa using fun e he => hne e (hpl e he))
      (by simpa using hpos) (fun e he => (hmem e (hpl e he)).mp he) (by simp)
  · intro g hg
    rcases mem_touched.mp hg with rfl | ⟨f, hf, rfl⟩ | hg
    · exact .inl rfl
    · exact .inr ⟨f, hpl f hf, hne f (hpl f hf), rfl, (hmem f (hpl f hf)).mp hf⟩
    · exact absurd hg List.not_mem_nil
  · rintro _ g (rfl | ⟨f, hf, _, rfl, hlt⟩)
    · exact mem_touched.mpr (.inl rfl)
    · exact mem_touched.mpr (.inr (.inl ⟨f, (hmem f hf).mpr hlt, rfl⟩))

/-- The reported tags include those of all entries that an access of age `a` drops. -/
def Reports (T : CacheTraits) (a : ℕ) (l : List AgedTag) (evicted : List ℕ) : Prop :=
  T.associativity < 256 → ∀ e ∈ l, e.tag ∈ evicted ∨ (bump a e).age < T.associativity

theorem reports_of_lt {a : ℕ} (ha : a < T.associativity) (hw : WellFormed T.associativity l) :
    Reports T a l [] := by
  intro _ e he
  have hlt := hw.age_lt e he
  unfold bump
  dsimp only
  split_ifs <;> omega

/-- An update succeeds unless it assumes a hit on an absent tag of a full set. -/
theorem update_spec (hA0 : 0 < T.associativity) (hs : Holds T.associativity s l)
    (hw : WellFormed T.associativity l) (hc : Counting l) (tag : ℕ) (wantReport : Bool)
    (assumption : Classification)
    (hlegal : assumesHit T assumption = true → (∀ e ∈ l, e.tag ≠ tag) →
      l.length < T.associativity) :
    ∃ s' l' evicted, update T s tag wantReport assumption =
        .ok (s', reportOf wantReport evicted) ∧ Holds T.associativity s' l' ∧
      Updated T (effectiveAge T assumption tag l) tag l l' ∧
      Reports T (effectiveAge T assumption tag l) l evicted := by
  by_cases hA : T.associativity < 256
  · by_cases hfound : ∃ e ∈ l, e.tag = tag
    · obtain ⟨e, he, rfl⟩ := hfound
      obtain ⟨p, r, rfl⟩ := List.append_of_mem he
      have hage := effectiveAge_of_mem (T := T) assumption hw.distinct he
      obtain ⟨s', hu, hs'⟩ := update_found hs hw wantReport assumption
      rw [hage]
      exact ⟨s', _, _, hu, hs', updated_of_found hw hc, reports_of_lt (hw.age_lt e he) hw⟩
    · have hne : ∀ e ∈ l, e.tag ≠ tag := fun e he h => hfound ⟨e, he, h⟩
      by_cases hhit : assumesHit T assumption = true
      · have hlen := hlegal hhit hne
        obtain ⟨s', hu, hs'⟩ := update_absent_hit hs hw hA hne hlen wantReport hhit
        have hage : effectiveAge T assumption tag l = T.associativity - 1 := by
          rw [effectiveAge_of_absent hne, if_pos hhit]
        rw [hage]
        refine ⟨s', _, _, hu, hs', ?_, reports_of_lt (by omega) hw⟩
        have hle : ∀ e ∈ l, e.age ≤ T.associativity - 1 := fun e he => by
          have := hw.age_lt e he
          omega
        refine updated_of_absent hA hA0 hw hne (List.Sublist.refl l) hle ?_ ?_
        · intro e he
          have : 0 < l.length := List.length_pos_of_mem he
          omega
        · intro e he
          have := bump_age_le (hle e he)
          exact ⟨fun _ => by omega, fun _ => he⟩
      · have hhit : assumesHit T assumption = false := by simpa using hhit
        obtain ⟨s', hu, hs'⟩ := update_absent hs hw hA hne (hc.survivors_lt hA0 hw.age_lt)
          wantReport hhit
        have hage : effectiveAge T assumption tag l = T.associativity := by
          rw [effectiveAge_of_absent hne, hhit]
          rfl
        have hkept : ∀ e ∈ l, e ∈ survivors T.associativity l ↔
            (bump T.associativity e).age < T.associativity := by
          intro e he
          have := hw.age_lt e he
          simp only [survivors, List.mem_filter, he, true_and, bump, this, if_true]
          simp
          omega
        rw [hage]
        refine ⟨s', _, _, hu, hs', ?_, ?_⟩
        · refine updated_of_absent hA hA0 hw hne List.filter_sublist ?_ (fun _ _ => .inl hA0) hkept
          exact fun e he => (hw.age_lt e (List.mem_filter.mp he).1).le
        · intro _ e he
          have hsplit := survivors_append_oldest hw.sorted hw.age_lt
          have hmem : e ∈ survivors T.associativity l ++ oldest T.associativity l := hsplit.symm ▸ he
          rcases List.mem_append.mp hmem with hmem | hmem
          · exact .inr ((hkept e he).mp hmem)
          · exact .inl (List.mem_map_of_mem hmem)
  · have hnil : l = [] := hw.small.resolve_left hA
    subst l
    obtain ⟨s', hu, hs'⟩ := update_wide hs (by omega) tag wantReport assumption
    exact ⟨s', [], [], hu, hs', ⟨wellFormed_nil, by simp, fun h => absurd h hA⟩,
      fun _ e he => absurd he List.not_mem_nil⟩

/-! ## potentialUpdate -/

theorem potentialUpdate_eq (hs : Holds T.associativity s l) (hw : WellFormed T.associativity l)
    (wantReport : Bool) :
    ∃ s', potentialUpdate T s wantReport =
        .ok (s', reportOf wantReport ((oldest T.associativity l).map AgedTag.tag)) ∧
      Holds T.associativity s'
        ((survivors T.associativity l).map (bump T.associativity)) := by
  have hl := survivors_append_oldest hw.sorted hw.age_lt
  have hs' : Holds T.associativity s (survivors T.associativity l ++ oldest T.associativity l) :=
    hl.symm ▸ hs
  generalize hp : survivors T.associativity l = p at *
  generalize hq : oldest T.associativity l = q at *
  have hpm : ∀ e ∈ p, e ∈ l ∧ e.age ≠ T.associativity - 1 := by
    subst p
    simp [survivors]
  have hqm : ∀ e ∈ q, e.age = T.associativity - 1 := by
    subst q
    simp [oldest]
  obtain ⟨u, ht, hu⟩ := hs'.tags_eq
  obtain ⟨v, ha, hv⟩ := hs'.ages_eq
  have hsize : s.size = p.length + q.length := by rw [hs'.size_eq, List.length_append]
  have hsmall : p.length + q.length < 256 := by
    have := hs'.length_le
    rw [List.length_append] at this
    rcases hw.small with hA | hnil
    · omega
    · have := congrArg List.length (hl.trans hnil)
      simp only [List.length_append, List.length_nil] at this
      omega
  have hevict : evictOldest T.associativity s.size s [] =
      .ok (p.length, { s with size := p.length }, q.map AgedTag.tag) := by
    have hway : s.size = toWay (p.length + q.length) := by rw [hsize, toWay_of_lt hsmall]
    rw [hsize, evictOldest_eq (fun e he => (hpm e he).2) hqm ht ha (by omega) hway [],
      List.append_nil]
  have hage : ageAll p.length s.ages =
      .ok ((p.map fun e => e.age + 1) ++ (q.map AgedTag.age ++ v)) := by
    rw [ha, List.map_append, List.append_assoc]
    refine ageAll_eq p ?_ _
    intro e he
    have hlt := hw.age_lt e (hpm e he).1
    have := (hpm e he).2
    have := hw.small.resolve_right (List.ne_nil_of_mem (hpm e he).1)
    omega
  have hbump : p.map (fun e => e.age + 1) = (p.map (bump T.associativity)).map AgedTag.age := by
    rw [List.map_map]
    refine List.map_congr_left fun e he => ?_
    have := hw.age_lt e (hpm e he).1
    simp [bump, this]
  rw [List.length_append] at hu hv
  refine ⟨⟨s.tags, (p.map fun e => e.age + 1) ++ (q.map AgedTag.age ++ v), p.length⟩, ?_, ?_⟩
  · simp only [potentialUpdate, hevict, hage, ok_bind]
  · refine ⟨by simp, ⟨q.map AgedTag.tag ++ u, ?_, ?_⟩, ⟨q.map AgedTag.age ++ v, ?_, ?_⟩⟩
    · rw [map_tag_map_bump, ht, List.map_append, List.append_assoc]
    · simp only [List.length_append, List.length_map]
      omega
    · rw [hbump]
    · simp only [List.length_append, List.length_map]
      omega

/-- An unknown access ages every entry and evicts those that may leave the set. -/
theorem potentialUpdate_spec (hs : Holds T.associativity s l)
    (hw : WellFormed T.associativity l) (wantReport : Bool) :
    ∃ s' l' evicted, potentialUpdate T s wantReport = .ok (s', reportOf wantReport evicted) ∧
      Holds T.associativity s' l' ∧ WellFormed T.associativity l' ∧
      (∀ e, e ∈ l' ↔ ∃ f ∈ l, e = ⟨f.tag, f.age + 1⟩ ∧ f.age + 1 < T.associativity) ∧
      ∀ f ∈ l, f.tag ∈ evicted ∨ f.age + 1 < T.associativity := by
  obtain ⟨s', hp, hs'⟩ := potentialUpdate_eq hs hw wantReport
  have hbump : ∀ f ∈ l, bump T.associativity f = ⟨f.tag, f.age + 1⟩ := fun f hf => by
    simp [bump, hw.age_lt f hf]
  have hmem : ∀ e, e ∈ (survivors T.associativity l).map (bump T.associativity) ↔
      ∃ f ∈ l, e = ⟨f.tag, f.age + 1⟩ ∧ f.age + 1 < T.associativity := by
    intro e
    simp only [survivors, List.mem_map, List.mem_filter]
    constructor
    · rintro ⟨f, ⟨hf, hne⟩, rfl⟩
      have hlt := hw.age_lt f hf
      refine ⟨f, hf, hbump f hf, ?_⟩
      have : f.age ≠ T.associativity - 1 := by simpa using hne
      omega
    · rintro ⟨f, hf, rfl, hlt⟩
      exact ⟨f, ⟨hf, by simp; omega⟩, hbump f hf⟩
  have hreport : ∀ f ∈ l, f.tag ∈ (oldest T.associativity l).map AgedTag.tag ∨
      f.age + 1 < T.associativity := by
    intro f hf
    have hlt := hw.age_lt f hf
    by_cases hold : f.age = T.associativity - 1
    · exact .inl (List.mem_map_of_mem (List.mem_filter.mpr ⟨hf, by simpa using hold⟩))
    · exact .inr (by omega)
  refine ⟨s', _, _, hp, hs', ⟨?_, ?_, ?_, ?_⟩, hmem, hreport⟩
  · refine List.pairwise_map.mpr ((hw.sorted.filter _).imp_of_mem ?_)
    intro e f he hf hef
    rw [hbump e (List.mem_filter.mp he).1, hbump f (List.mem_filter.mp hf).1]
    unfold Before at *
    dsimp only
    omega
  · exact (hw.distinct.sublist List.filter_sublist).map_bump _
  · intro e he
    obtain ⟨f, _, rfl, hlt⟩ := (hmem e).mp he
    exact hlt
  · rcases hw.small with hA | rfl
    · exact .inl hA
    · exact .inr rfl

end LruMaxAgeAbstractCache

end Llvmta
