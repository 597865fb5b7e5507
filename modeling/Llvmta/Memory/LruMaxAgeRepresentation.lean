import Llvmta.Memory.LruMaxAgeSoundness

/-!
# The representation of the must analysis

The entries in use are sorted, have distinct tags and ages below the ways, and
at most `i + 1` of them have an age of at most `i`. No operation leaves this
form, so that `operator==` compares the bounds and not only the arrays. Neither
is the end of the arrays passed, except by an update of a set without ways and
by a hit assumed for an absent tag when the size of the full set wraps around.
-/

namespace Llvmta

open Checked AgedTag

namespace LruMaxAgeAbstractCache

variable {T : CacheTraits} {s t : LruMaxAgeAbstractCache} {l l' : List AgedTag}

/-- `operator==`: the first `size` elements of the arrays are compared. -/
def equals (x y : LruMaxAgeAbstractCache) : Bool :=
  x.size == y.size && x.tags.take x.size == y.tags.take x.size &&
    x.ages.take x.size == y.ages.take x.size

/-- The entries in use. -/
def entries (s : LruMaxAgeAbstractCache) : List AgedTag :=
  List.zipWith AgedTag.mk (s.tags.take s.size) (s.ages.take s.size)

/-- The form that all operations keep. -/
structure Representation (T : CacheTraits) (s : LruMaxAgeAbstractCache) : Prop where
  tags_length : s.tags.length = T.associativity
  ages_length : s.ages.length = T.associativity
  size_le : s.size ≤ T.associativity
  distinct : (s.tags.take s.size).Nodup
  sorted : Sorted s.entries
  age_lt : ∀ age ∈ s.ages.take s.size, age < T.associativity
  counting : ∀ i, (s.ages.take s.size).countP (fun age => age ≤ i) ≤ i + 1

/-- The arrays hold the entries `l`, which have this form. -/
structure Stored (T : CacheTraits) (s : LruMaxAgeAbstractCache) (l : List AgedTag) : Prop where
  holds : Holds T.associativity s l
  wellFormed : WellFormed T.associativity l
  counting : Counting l

theorem Holds.take_tags {A : ℕ} (h : Holds A s l) : s.tags.take s.size = l.map AgedTag.tag := by
  obtain ⟨junk, hjunk, _⟩ := h.tags_eq
  rw [hjunk, h.size_eq, List.take_left' (List.length_map _)]

theorem Holds.take_ages {A : ℕ} (h : Holds A s l) : s.ages.take s.size = l.map AgedTag.age := by
  obtain ⟨junk, hjunk, _⟩ := h.ages_eq
  rw [hjunk, h.size_eq, List.take_left' (List.length_map _)]

theorem Holds.entries_eq {A : ℕ} (h : Holds A s l) : s.entries = l := by
  rw [entries, h.take_tags, h.take_ages, List.zipWith_map, List.zipWith_self]
  exact List.map_id l

theorem Stored.representation (h : Stored T s l) : Representation T s where
  tags_length := by
    obtain ⟨junk, hjunk, hlen⟩ := h.holds.tags_eq
    rw [hjunk, List.length_append, List.length_map, hlen]
  ages_length := by
    obtain ⟨junk, hjunk, hlen⟩ := h.holds.ages_eq
    rw [hjunk, List.length_append, List.length_map, hlen]
  size_le := h.holds.size_eq ▸ h.holds.length_le
  distinct := h.holds.take_tags ▸ h.wellFormed.distinct
  sorted := h.holds.entries_eq.symm ▸ h.wellFormed.sorted
  age_lt := by
    rw [h.holds.take_ages]
    intro age hage
    obtain ⟨e, he, rfl⟩ := List.mem_map.mp hage
    exact h.wellFormed.age_lt e he
  counting := by
    intro i
    rw [h.holds.take_ages, List.countP_map]
    exact h.counting i

/-! ## The counting bound -/

/-- Entries of age at most `i` are counted by their tags. -/
theorem countP_age_le (hd : Distinct l) {i : ℕ} {tags : List ℕ}
    (htags : ∀ e ∈ l, e.age ≤ i → e.tag ∈ tags) :
    l.countP (fun e => e.age ≤ i) ≤ tags.length := by
  have hsub : ((l.filter fun e => e.age ≤ i).map AgedTag.tag).Subperm tags := by
    apply List.subperm_of_subset (hd.sublist List.filter_sublist)
    intro t ht
    obtain ⟨e, he, rfl⟩ := List.mem_map.mp ht
    obtain ⟨hel, hei⟩ := List.mem_filter.mp he
    exact htags e hel (by simpa using hei)
  have hlen := hsub.length_le
  rwa [List.length_map, ← List.countP_eq_length_filter] at hlen

theorem tag_mem_map_filter {p : AgedTag → Bool} {e : AgedTag} {tag : ℕ} (he : e ∈ l)
    (hp : p e = true) (htag : e.tag = tag) : tag ∈ (l.filter p).map AgedTag.tag :=
  List.mem_map.mpr ⟨e, List.mem_filter.mpr ⟨he, hp⟩, htag⟩

theorem Counting.younger (hc : Counting l) (i : ℕ) : l.countP (fun e => e.age < i) ≤ i := by
  cases i with
  | zero => simp
  | succ i => simpa only [Nat.lt_succ_iff] using hc i

/-- An access moves one entry to the front of those it ages. Beyond the accessed
age the entries stay as many, or all ways may be used. -/
theorem Updated.counting {assumption : Classification} {tag : ℕ}
    (hu : Updated T (effectiveAge T assumption tag l) tag l l')
    (hw : WellFormed T.associativity l) (hc : Counting l)
    (hlen : l'.length ≤ T.associativity) : Counting l' := by
  intro i
  generalize ha : effectiveAge T assumption tag l = a at hu
  have hd := hu.wellFormed.distinct
  by_cases hi : i < a
  · have htags : ∀ e ∈ l', e.age ≤ i →
        e.tag ∈ tag :: (l.filter fun f => f.age < i).map AgedTag.tag := by
      intro e he hei
      rcases hu.mem e he with rfl | ⟨f, hf, _, rfl, _⟩
      · exact List.mem_cons_self
      · have hfi : f.age < i := by
          unfold bump at hei
          dsimp only at hei
          split_ifs at hei <;> omega
        exact List.mem_cons_of_mem _ (tag_mem_map_filter hf (decide_eq_true hfi) rfl)
    have hcount := countP_age_le hd htags
    have hyounger := hc.younger i
    rw [List.length_cons, List.length_map, ← List.countP_eq_length_filter] at hcount
    omega
  · by_cases hfound : ∃ e ∈ l, e.tag = tag
    · obtain ⟨e, he, rfl⟩ := hfound
      rw [effectiveAge_of_mem assumption hw.distinct he] at ha
      have htags : ∀ f ∈ l', f.age ≤ i →
          f.tag ∈ (l.filter fun g => g.age ≤ i).map AgedTag.tag := by
        intro f hf hfi
        rcases hu.mem f hf with rfl | ⟨g, hg, _, rfl, _⟩
        · exact tag_mem_map_filter he (decide_eq_true (by omega)) rfl
        · have hgi : g.age ≤ i := (Nat.le_add_right _ _).trans hfi
          exact tag_mem_map_filter hg (decide_eq_true hgi) rfl
      have hcount := countP_age_le hd htags
      rw [List.length_map, ← List.countP_eq_length_filter] at hcount
      exact hcount.trans (hc i)
    · rw [effectiveAge_of_absent fun e he h => hfound ⟨e, he, h⟩] at ha
      have hall : l'.countP (fun e => e.age ≤ i) ≤ l'.length := List.countP_le_length
      split_ifs at ha <;> omega

/-! ## The operations -/

theorem stored_new (assumeAnEmptyCache : Bool) : Stored T (new T assumeAnEmptyCache) [] where
  holds := holds_new assumeAnEmptyCache
  wellFormed := wellFormed_nil
  counting := by simp [Counting]

theorem Stored.of_potentialUpdate (h : Stored T s l) (wantReport : Bool) :
    ∃ s' l' report, potentialUpdate T s wantReport = .ok (s', report) ∧ Stored T s' l' := by
  obtain ⟨s', l', evicted, hp, hs', hw', hmem, _⟩ :=
    potentialUpdate_spec h.holds h.wellFormed wantReport
  refine ⟨s', l', _, hp, hs', hw', fun i => ?_⟩
  have htags : ∀ e ∈ l', e.age ≤ i → e.tag ∈ (l.filter fun f => f.age < i).map AgedTag.tag := by
    intro e he hei
    obtain ⟨f, hf, rfl, _⟩ := (hmem e).mp he
    exact tag_mem_map_filter hf (decide_eq_true hei) rfl
  have hcount := countP_age_le hw'.distinct htags
  have hyounger := h.counting.younger i
  rw [List.length_map, ← List.countP_eq_length_filter] at hcount
  omega

theorem Stored.of_join (hs : Stored T s l) (ht : Stored T t l') :
    ∃ u o, join T s t = .ok u ∧ Stored T u o := by
  obtain ⟨u, o, hu, ho, hw, hmem⟩ := join_spec hs.holds ht.holds hs.wellFormed ht.wellFormed
  refine ⟨u, o, hu, ho, hw, fun i => ?_⟩
  have htags : ∀ e ∈ o, e.age ≤ i → e.tag ∈ (l.filter fun f => f.age ≤ i).map AgedTag.tag := by
    intro e he hei
    obtain ⟨f, hf, g, _, hft, _, hage⟩ := (hmem e).mp he
    have hfi : f.age ≤ i := (le_max_left f.age g.age).trans (hage ▸ hei)
    exact tag_mem_map_filter hf (decide_eq_true hfi) hft
  have hcount := countP_age_le hw.distinct htags
  rw [List.length_map, ← List.countP_eq_length_filter] at hcount
  exact hcount.trans (hs.counting i)

/-- The updates that write behind the arrays: of a set without ways, and of a full
set of 255 ways when a hit is assumed for an absent tag. There `size` becomes 0,
which the assertion on it accepts. -/
def Overflows (T : CacheTraits) (s : LruMaxAgeAbstractCache) (tag : ℕ)
    (assumption : Classification) : Prop :=
  (assumesHit T assumption = false ∧ T.associativity = 0) ∨
    (assumesHit T assumption = true ∧ T.associativity = 255 ∧ s.size = 255 ∧
      tag ∉ s.tags.take s.size)

theorem update_noWays (hs : Holds T.associativity s l) (hA : T.associativity = 0) (tag : ℕ)
    (wantReport : Bool) {assumption : Classification} (hhit : assumesHit T assumption = false) :
    update T s tag wantReport assumption = .error .outOfBounds := by
  have hl : l = [] := List.eq_nil_of_length_eq_zero (by have := hs.length_le; omega)
  subst l
  obtain ⟨hsize, ⟨u, ht, hu⟩, _⟩ := hs
  obtain ⟨tags, ages, size⟩ := s
  have hnil : u = [] := List.eq_nil_of_length_eq_zero (by simp at hu; omega)
  simp only [List.map_nil, List.nil_append, List.length_nil] at hsize ht
  subst hsize ht hnil
  simp [update, search, findIndex, ageAt, makeRoom, hA, hhit, evictOldest, insertFront,
    shiftEntries, write, toWay]

/-- A hit assumed for an absent tag of a full set is rejected, unless the size
wraps around. -/
theorem update_illegal (hs : Holds T.associativity s l) (hA : T.associativity < 256) {tag : ℕ}
    (hne : ∀ e ∈ l, e.tag ≠ tag) (hlen : l.length = T.associativity) (wantReport : Bool)
    {assumption : Classification} (hhit : assumesHit T assumption = true) :
    update T s tag wantReport assumption = if T.associativity = 255 then .error .outOfBounds
      else .error (.assertion
        "Full cache and addr not in there, cannot assume a hit (illegal classification)") := by
  obtain ⟨hsearch, hage⟩ := search_of_absent hs hne hA
  have hsize : s.size = T.associativity := hs.size_eq.trans hlen
  simp only [update, hsearch, hage, ok_bind]
  split_ifs with hwrap
  · have hroom : makeRoom T s l.length T.associativity assumption =
        .ok (254, 255, { s with size := 0 }, []) := by
      simp [makeRoom, hhit, hlen, hsize, hwrap, toWay]
    have htags : s.tags.length = 255 := by
      obtain ⟨u, ht, hu⟩ := hs.tags_eq
      rw [ht, List.length_append, List.length_map, hu, hwrap]
    have hread : read s.tags 254 = .ok s.tags[254] := read_of_lt (by omega)
    have hwrite (a : ℕ) : write s.tags 255 a = .error .outOfBounds := by
      rw [write, if_neg (by omega)]
    have hmany : 1 < T.associativity := by omega
    rw [hroom]
    simp only [ok_bind, insertFront, shiftEntries, hmany, if_true]
    rw [shiftRight, hread]
    simp only [ok_bind, hwrite]
    rfl
  · have hroom : makeRoom T s l.length T.associativity assumption = .error (.assertion
        "Full cache and addr not in there, cannot assume a hit (illegal classification)") := by
      have hsucc : toWay (T.associativity + 1) = T.associativity + 1 := toWay_of_lt (by omega)
      have hfull : ¬ T.associativity + 1 ≤ T.associativity := by omega
      simp only [makeRoom, if_true, hhit, hsize, hsucc, hfull, decide_false, assertThat]
      rfl
    rw [hroom]
    rfl

/-- An update fails by an access outside the arrays just when `Overflows` says so;
a result is of the same form again. -/
theorem Stored.of_update (h : Stored T s l) (tag : ℕ) (wantReport : Bool)
    (assumption : Classification) :
    (update T s tag wantReport assumption = .error .outOfBounds ↔ Overflows T s tag assumption) ∧
      ∀ s' report, update T s tag wantReport assumption = .ok (s', report) →
        ∃ l', Stored T s' l' := by
  have habsent : tag ∉ s.tags.take s.size ↔ ∀ e ∈ l, e.tag ≠ tag := by
    rw [h.holds.take_tags]
    simp
  have hlegal (hA0 : 0 < T.associativity) (hno : assumesHit T assumption = true →
      (∀ e ∈ l, e.tag ≠ tag) → l.length < T.associativity) :
      (update T s tag wantReport assumption = .error .outOfBounds ↔
        Overflows T s tag assumption) ∧
      ∀ s' report, update T s tag wantReport assumption = .ok (s', report) →
        ∃ l', Stored T s' l' := by
    obtain ⟨u, l', evicted, hu, hs', hl', _⟩ :=
      update_spec hA0 h.holds h.wellFormed h.counting tag wantReport assumption hno
    have hnot : ¬ Overflows T s tag assumption := by
      rintro (⟨_, hA⟩ | ⟨hhit, hA, hsize, htag⟩)
      · omega
      · have := hno hhit (habsent.mp htag)
        have := h.holds.size_eq
        omega
    constructor
    · rw [hu]
      constructor
      · intro herr
        cases herr
      · exact fun ho => absurd ho hnot
    · intro s' report hs
      rw [hu] at hs
      cases hs
      exact ⟨l', hs', hl'.wellFormed, hl'.counting h.wellFormed h.counting hs'.length_le⟩
  by_cases hhit : assumesHit T assumption = true
  · by_cases hfull : (∀ e ∈ l, e.tag ≠ tag) ∧ l.length = T.associativity
    · by_cases hA : T.associativity < 256
      · have hu := update_illegal h.holds hA hfull.1 hfull.2 wantReport hhit
        have hsize : s.size = T.associativity := h.holds.size_eq.trans hfull.2
        split_ifs at hu with hwrap
        · exact ⟨⟨fun _ => .inr ⟨hhit, hwrap, hsize.trans hwrap, habsent.mpr hfull.1⟩,
            fun _ => hu⟩, fun s' report hs => by rw [hu] at hs; cases hs⟩
        · refine ⟨⟨fun herr => ?_, ?_⟩, fun s' report hs => by rw [hu] at hs; cases hs⟩
          · rw [hu] at herr
            cases herr
          · rintro (⟨hno, _⟩ | ⟨_, hA, _⟩)
            · rw [hhit] at hno
              cases hno
            · exact absurd hA hwrap
      · have hnil := h.wellFormed.small.resolve_left hA
        have := hfull.2
        rw [hnil, List.length_nil] at this
        omega
    · have hlen := h.holds.length_le
      have hlt (hne : ∀ e ∈ l, e.tag ≠ tag) : l.length < T.associativity :=
        lt_of_le_of_ne hlen fun heq => hfull ⟨hne, heq⟩
      by_cases hA0 : 0 < T.associativity
      · exact hlegal hA0 fun _ => hlt
      · have hnil : l = [] := List.eq_nil_of_length_eq_zero (by omega)
        have := hlt (by simp [hnil])
        omega
  · have hhit : assumesHit T assumption = false := by simpa using hhit
    by_cases hA0 : 0 < T.associativity
    · exact hlegal hA0 fun h' => by rw [hhit] at h'; cases h'
    · have hA0 : T.associativity = 0 := by omega
      have hu := update_noWays h.holds hA0 tag wantReport hhit
      exact ⟨⟨fun _ => .inl ⟨hhit, hA0⟩, fun _ => hu⟩,
        fun s' report hs => by rw [hu] at hs; cases hs⟩

/-! ## Equality -/

theorem Stored.getMaxAge_eq_iff (h : Stored T s l) (tag age : ℕ) (hage : age < T.associativity) :
    getMaxAge T s tag = .ok age ↔ ⟨tag, age⟩ ∈ l := by
  constructor
  · intro hget
    by_cases hfound : ∃ e ∈ l, e.tag = tag
    · obtain ⟨e, he, rfl⟩ := hfound
      rw [getMaxAge_found h.holds h.wellFormed.distinct he] at hget
      cases hget
      exact he
    · rw [getMaxAge_absent h.holds fun e he h => hfound ⟨e, he, h⟩] at hget
      cases hget
      exact absurd hage (lt_irrefl _)
  · exact getMaxAge_found h.holds h.wellFormed.distinct

theorem equals_iff (hs : Holds T.associativity s l) (ht : Holds T.associativity t l') :
    equals s t = true ↔ l = l' := by
  rw [equals, Bool.and_eq_true, Bool.and_eq_true, beq_iff_eq, beq_iff_eq, beq_iff_eq]
  constructor
  · rintro ⟨⟨hsize, htags⟩, hages⟩
    have hst : s.entries = t.entries := by
      rw [entries, entries, htags, hages, hsize]
    rwa [hs.entries_eq, ht.entries_eq] at hst
  · rintro rfl
    have hsize : s.size = t.size := hs.size_eq.trans ht.size_eq.symm
    refine ⟨⟨hsize, ?_⟩, ?_⟩
    · rw [hs.take_tags, hsize, ht.take_tags]
    · rw [hs.take_ages, hsize, ht.take_ages]

/-- Equal bounds are stored in equal arrays. -/
theorem Stored.equals_iff_getMaxAge (hs : Stored T s l) (ht : Stored T t l') :
    equals s t = true ↔ ∀ tag, getMaxAge T s tag = getMaxAge T t tag := by
  rw [equals_iff hs.holds ht.holds]
  constructor
  · rintro rfl tag
    by_cases hfound : ∃ e ∈ l, e.tag = tag
    · obtain ⟨e, he, rfl⟩ := hfound
      rw [getMaxAge_found hs.holds hs.wellFormed.distinct he,
        getMaxAge_found ht.holds ht.wellFormed.distinct he]
    · have hne : ∀ e ∈ l, e.tag ≠ tag := fun e he h => hfound ⟨e, he, h⟩
      rw [getMaxAge_absent hs.holds hne, getMaxAge_absent ht.holds hne]
  · intro heq
    apply hs.wellFormed.sorted.ext ht.wellFormed.sorted
    rintro ⟨tag, age⟩
    constructor
    · intro he
      have hage := hs.wellFormed.age_lt _ he
      exact (ht.getMaxAge_eq_iff tag age hage).mp
        ((heq tag).symm.trans ((hs.getMaxAge_eq_iff tag age hage).mpr he))
    · intro he
      have hage := ht.wellFormed.age_lt _ he
      exact (hs.getMaxAge_eq_iff tag age hage).mp
        ((heq tag).trans ((ht.getMaxAge_eq_iff tag age hage).mpr he))

/-! ## Runs -/

theorem stored_of_eval (r : Collecting.Run Bool MustOp) :
    ∀ s, (analysis T).eval r = .ok s → ∃ l, Stored T s l := by
  apply Collecting.Analysis.Run.sound_of_ok (S := analysis T) (fun s _ => ∃ l, Stored T s l)
  · exact fun assumeAnEmptyCache => ⟨[], stored_new assumeAnEmptyCache⟩
  · rintro op s s' _ ⟨l, hl⟩ hs'
    cases op with
    | update tag wantReport assumption =>
      cases hu : LruMaxAgeAbstractCache.update T s tag wantReport assumption with
      | error e => simp [analysis, hu, Except.map] at hs'
      | ok res =>
        obtain ⟨u, report⟩ := res
        simp only [analysis, hu, Except.map, Except.ok.injEq] at hs'
        subst hs'
        exact (hl.of_update tag wantReport assumption).2 u report hu
    | potentialUpdate wantReport =>
      obtain ⟨u, l', report, hu, hl'⟩ := hl.of_potentialUpdate wantReport
      simp only [analysis, hu, Except.map, Except.ok.injEq] at hs'
      subst hs'
      exact ⟨l', hl'⟩
  · rintro s t u _ _ ⟨l, hl⟩ ⟨l', hl'⟩ hu
    obtain ⟨u', o, hu', ho⟩ := hl.of_join hl'
    obtain rfl : u' = u := Except.ok.inj (hu'.symm.trans hu)
    exact ⟨o, ho⟩

/-- In every state a run ends in the entries have the form described above, and
`operator==` is equality of the bounds. From there an update leaves the arrays
in the two cases of `Overflows` only, and the other operations never do. -/
theorem representation_of_run (T : CacheTraits) (r : Collecting.Run Bool MustOp)
    (s : LruMaxAgeAbstractCache) (hs : (analysis T).eval r = .ok s) :
    Representation T s ∧
    (∀ tag wantReport assumption, update T s tag wantReport assumption = .error .outOfBounds ↔
      Overflows T s tag assumption) ∧
    (∀ wantReport, ∃ res, potentialUpdate T s wantReport = .ok res) ∧
    ∀ r' t, (analysis T).eval r' = .ok t → (∃ u, join T s t = .ok u) ∧
      (equals s t = true ↔ ∀ tag, getMaxAge T s tag = getMaxAge T t tag) := by
  obtain ⟨l, hl⟩ := stored_of_eval r s hs
  refine ⟨hl.representation, fun tag wantReport assumption =>
    (hl.of_update tag wantReport assumption).1, fun wantReport => ?_, fun r' t ht => ?_⟩
  · obtain ⟨s', _, report, hp, _⟩ := hl.of_potentialUpdate wantReport
    exact ⟨(s', report), hp⟩
  · obtain ⟨l', hl'⟩ := stored_of_eval r' t ht
    obtain ⟨u, _, hu, _⟩ := hl.of_join hl'
    exact ⟨⟨u, hu⟩, hl.equals_iff_getMaxAge hl'⟩

/-- A joined state of a two-way set, and one with a single entry. -/
theorem representation_of_run_twoWays :
    let T : CacheTraits := ⟨16, 2, 4, false, false, 1, 5⟩
    let s : LruMaxAgeAbstractCache := ⟨[7, 7], [1, 1], 1⟩
    Representation T s ∧
    (∀ tag wantReport assumption, update T s tag wantReport assumption = .error .outOfBounds ↔
      Overflows T s tag assumption) ∧
    (∀ wantReport, ∃ res, potentialUpdate T s wantReport = .ok res) ∧
    ∀ r' t, (analysis T).eval r' = .ok t → (∃ u, join T s t = .ok u) ∧
      (equals s t = true ↔ ∀ tag, getMaxAge T s tag = getMaxAge T t tag) := by
  intro T s
  let seven : Collecting.Run Bool MustOp := .step (.start true) (.update 7 false .clUnknown)
  let r : Collecting.Run Bool MustOp := .join (.step seven (.update 9 true .clUnknown)) seven
  exact representation_of_run T r s (by decide)

/-- Accesses to the tags below `n`. -/
def fill : ℕ → Collecting.Run Bool MustOp
  | 0 => .start false
  | n + 1 => .step (fill n) (.update n false .clUnknown)

theorem eval_fill (hA : T.associativity < 256) (n : ℕ) (hn : n ≤ T.associativity) :
    ∃ s l, (analysis T).eval (fill n) = .ok s ∧ Stored T s l ∧ l.length = n ∧
      ∀ e ∈ l, e.tag < n ∧ e.age < n := by
  induction n with
  | zero => exact ⟨_, [], rfl, stored_new false, rfl, by simp⟩
  | succ n ih =>
    obtain ⟨s, l, hs, hl, hlen, hlt⟩ := ih (by omega)
    have hne : ∀ e ∈ l, e.tag ≠ n := fun e he => (hlt e he).1.ne
    have hmiss : assumesHit T .clUnknown = false := by
      have h₁ : Classification.clUnknown ≠ .clHit := by decide
      have h₂ : Classification.clUnknown ≠ .cl2Hit := by decide
      simp [assumesHit, h₁, h₂]
    have hall : survivors T.associativity l = l := by
      apply List.filter_eq_self.mpr
      intro e he
      have := (hlt e he).2
      simp only [ne_eq, decide_eq_true_eq]
      omega
    have hfew : (survivors T.associativity l).length < T.associativity := by
      rw [hall]
      omega
    obtain ⟨s', hu, hs'⟩ := update_absent hl.holds hl.wellFormed hA hne hfew false
      hmiss
    obtain ⟨l', hl'⟩ := (hl.of_update n false .clUnknown).2 s' _ hu
    obtain rfl : l' = touched T.associativity n l [] := by
      rw [← hl'.holds.entries_eq, hs'.entries_eq, hall]
    refine ⟨s', _, ?_, hl', ?_, ?_⟩
    · rw [fill, Collecting.Analysis.eval_step_ok hs]
      simp only [analysis, hu, Except.map]
    · rw [length_touched, hlen, List.length_nil]
    · intro e he
      rcases mem_touched.mp he with rfl | ⟨f, hf, rfl⟩ | he
      · exact ⟨Nat.lt_succ_self n, Nat.succ_pos n⟩
      · have hf' := hlt f hf
        have hage : (bump T.associativity f).age ≤ f.age + 1 := by
          unfold bump
          dsimp only
          split_ifs <;> omega
        exact ⟨hf'.1.trans (Nat.lt_succ_self n), by omega⟩
      · exact absurd he List.not_mem_nil

/-- Accesses to 255 tags fill a set of 255 ways. The hit that is then assumed for
another tag passes the assertion and writes behind the arrays. -/
theorem update_full_wraps :
    let T : CacheTraits := ⟨16, 255, 4, false, false, 1, 5⟩
    ∃ s, (analysis T).eval (fill 255) = .ok s ∧
      update T s 255 false .clHit = .error .outOfBounds := by
  intro T
  obtain ⟨s, l, hs, hl, hlen, hlt⟩ := eval_fill (T := T) (by decide) 255 le_rfl
  have habsent : 255 ∉ s.tags.take s.size := by
    rw [hl.holds.take_tags]
    intro hmem
    obtain ⟨e, he, htag⟩ := List.mem_map.mp hmem
    have := (hlt e he).1
    omega
  have hsize : s.size = 255 := hl.holds.size_eq.trans hlen
  exact ⟨s, hs, (hl.of_update 255 false .clHit).1.mpr (.inr ⟨rfl, rfl, hsize, habsent⟩)⟩

end LruMaxAgeAbstractCache

end Llvmta
