import Llvmta.Library.CollectingRun
import Llvmta.Library.LruSet
import Llvmta.Memory.LruMaxAgeJoin

/-!
# Soundness of the must analysis

The concrete state of a cache set is a least-recently-used set. A state of the
must analysis stands for the sets that hold each of its tags at a position of at
most its age. Every run that assumes hits only where the tag is cached succeeds,
and its result stands for all sets the run describes.
-/

namespace Llvmta

open Checked AgedTag Lru

namespace LruMaxAgeAbstractCache

variable {T : CacheTraits} {s : LruMaxAgeAbstractCache} {l : List AgedTag}

/-! ## Classification -/

/-- The tag is stored with this age. -/
def Stores (s : LruMaxAgeAbstractCache) (tag age : ℕ) : Prop :=
  ∃ i < s.size, s.tags[i]? = some tag ∧ s.ages[i]? = some age

theorem stores_iff {A : ℕ} (hs : Holds A s l) (tag age : ℕ) : s.Stores tag age ↔ ⟨tag, age⟩ ∈ l := by
  obtain ⟨hsize, ⟨u, ht, _⟩, ⟨v, ha, _⟩⟩ := hs
  have hget : ∀ i < l.length, s.tags[i]? = l[i]?.map AgedTag.tag ∧
      s.ages[i]? = l[i]?.map AgedTag.age := by
    intro i hi
    rw [ht, ha, List.getElem?_append_left (by simpa using hi),
      List.getElem?_append_left (by simpa using hi), List.getElem?_map, List.getElem?_map]
    exact ⟨rfl, rfl⟩
  constructor
  · rintro ⟨i, hi, hti, hai⟩
    rw [hsize] at hi
    obtain ⟨h₁, h₂⟩ := hget i hi
    rw [List.getElem?_eq_getElem hi] at h₁ h₂
    rw [h₁, Option.map_some, Option.some_inj] at hti
    rw [h₂, Option.map_some, Option.some_inj] at hai
    rw [← hti, ← hai]
    exact List.getElem_mem hi
  · intro he
    obtain ⟨i, hi, hie⟩ := List.getElem_of_mem he
    obtain ⟨h₁, h₂⟩ := hget i hi
    rw [List.getElem?_eq_getElem hi, hie] at h₁ h₂
    exact ⟨i, hsize ▸ hi, h₁, h₂⟩

/-- The search for the tag of an entry ends at its position. -/
theorem search_entry (hs : Holds T.associativity s l) (hd : Distinct l) {e : AgedTag} (he : e ∈ l) :
    ∃ i, search s.tags e.tag s.size = .ok i ∧ i < s.size ∧ read s.ages i = .ok e.age := by
  obtain ⟨p, r, rfl⟩ := List.append_of_mem he
  obtain ⟨hsize, ⟨u, ht, _⟩, ⟨v, ha, _⟩⟩ := hs
  obtain ⟨hne, _⟩ := distinct_cons.mp (hd.perm List.perm_middle)
  have hsize' : s.size = p.length + (r.length + 1) := by
    rw [hsize]
    simp
  refine ⟨p.length, ?_, by omega, ?_⟩
  · rw [ht, hsize']
    simpa using search_found (fun f hf => hne f (by simp [hf])) (r.map AgedTag.tag ++ u) r.length
  · rw [ha]
    simpa using read_append (p.map AgedTag.age) (r.map AgedTag.age ++ v) e.age (i := p.length)
      (by simp)

theorem search_no_entry {tag : ℕ} (hs : Holds T.associativity s l) (hne : ∀ e ∈ l, e.tag ≠ tag) :
    search s.tags tag s.size = .ok s.size := by
  obtain ⟨hsize, ⟨u, ht, _⟩, _⟩ := hs
  rw [hsize, ht]
  exact search_absent hne u

theorem classify_found {M : Multicore} {index : ℕ} (hs : Holds T.associativity s l)
    (hd : Distinct l) {e : AgedTag} (he : e ∈ l) :
    classify T M s e.tag index =
      .ok (if T.associativity ≤ toUnsigned (e.age + M.conflicts T e.tag index)
        then .clMiss else .clHit) := by
  obtain ⟨i, hsearch, hlt, hread⟩ := search_entry hs hd he
  simp only [classify, hsearch, hread, ok_bind, hlt, if_true]
  split_ifs <;> rfl

theorem classify_absent {M : Multicore} {tag index : ℕ} (hs : Holds T.associativity s l)
    (hne : ∀ e ∈ l, e.tag ≠ tag) :
    classify T M s tag index =
      .ok (if l.length = T.associativity then .clMiss else .clUnknown) := by
  have hsearch := search_no_entry hs hne
  rw [hs.size_eq] at hsearch
  simp only [classify, hs.size_eq, hsearch, ok_bind, lt_irrefl, if_false]
  split_ifs <;> rfl

theorem getMaxAge_found (hs : Holds T.associativity s l) (hd : Distinct l) {e : AgedTag}
    (he : e ∈ l) : getMaxAge T s e.tag = .ok e.age := by
  obtain ⟨i, hsearch, hlt, hread⟩ := search_entry hs hd he
  simp only [getMaxAge, hsearch, hread, ok_bind, hlt, if_true]

theorem getMaxAge_absent {tag : ℕ} (hs : Holds T.associativity s l) (hne : ∀ e ∈ l, e.tag ≠ tag) :
    getMaxAge T s tag = .ok T.associativity := by
  simp only [getMaxAge, search_no_entry hs hne, ok_bind, lt_irrefl, if_false]

/-! ## Entries and cache sets -/

/-- Every entry bounds the position of its tag. -/
def Bounds {A : ℕ} (l : List AgedTag) (c : CacheSet ℕ A) : Prop := ∀ e ∈ l, c.Within e.tag e.age

theorem Bounds.counting {A : ℕ} {c : CacheSet ℕ A} (h : Bounds l c) (hd : Distinct l) :
    Counting l := by
  intro i
  have hlen : ((l.filter fun e => e.age ≤ i).map AgedTag.tag).length ≤ i + 1 := by
    apply CacheSet.length_le_of_within (hd.sublist List.filter_sublist)
    intro t ht
    obtain ⟨e, he, rfl⟩ := List.mem_map.mp ht
    obtain ⟨hel, hei⟩ := List.mem_filter.mp he
    exact (h e hel).mono (by simpa using hei)
  rwa [List.length_map, ← List.countP_eq_length_filter] at hlen

/-- An access whose age is known ages the entries as `Aged` says. -/
theorem Bounds.access {A a tag : ℕ} {l l' : List AgedTag} {c : CacheSet ℕ A} (h : Bounds l c)
    (hA : 0 < A) (ha : a < A → c.Within tag a)
    (hl' : ∀ e ∈ l', e = ⟨tag, 0⟩ ∨ Aged A a tag l e) : Bounds l' (c.access tag) := by
  intro e he
  rcases hl' e he with rfl | ⟨f, hf, _, rfl, hlt⟩
  · exact c.within_access_self tag hA 0
  · have hfc := h f hf
    unfold bump at hlt ⊢
    dsimp only at hlt ⊢
    split_ifs at hlt ⊢ with hfa
    · exact hfc.access_succ hlt
    · exact hfc.access_of_le (ha (by omega)) (Nat.le_of_not_lt hfa)

/-- The age that `update` works with is the one of the entry, `ASSOCIATIVITY - 1`
for an assumed hit, and none for a possible miss. -/
theorem within_effectiveAge {c : CacheSet ℕ T.associativity} (h : Bounds l c) (tag : ℕ)
    (assumption : Classification) (hlegal : assumesHit T assumption = true → tag ∈ c)
    (hlt : effectiveAge T assumption tag l < T.associativity) :
    c.Within tag (effectiveAge T assumption tag l) := by
  unfold effectiveAge at hlt ⊢
  cases hf : l.find? fun e => e.tag = tag with
  | some e =>
    have htag : e.tag = tag := by simpa using List.find?_some hf
    exact htag ▸ h e (List.mem_of_find?_eq_some hf)
  | none =>
    rw [hf] at hlt
    dsimp only at hlt ⊢
    split_ifs at hlt ⊢ with hhit
    · have hmem := hlegal hhit
      have := CacheSet.age_lt_ways hmem
      exact ⟨hmem, by omega⟩
    · exact absurd hlt (lt_irrefl _)

/-- A hit on an absent tag of a full set contradicts the entries. -/
theorem Bounds.length_lt {A : ℕ} {c : CacheSet ℕ A} (h : Bounds l c) (hd : Distinct l) {tag : ℕ}
    (hmem : tag ∈ c) (hne : ∀ e ∈ l, e.tag ≠ tag) : l.length < A := by
  by_contra hlen
  refine CacheSet.notMem_of_full hd (by simpa using hlen) ?_ ?_ hmem
  · intro t ht
    obtain ⟨e, he, rfl⟩ := List.mem_map.mp ht
    exact (h e he).1
  · intro ht
    obtain ⟨e, he, het⟩ := List.mem_map.mp ht
    exact hne e he het

/-! ## Runs -/

inductive MustOp where
  | update (tag : ℕ) (wantReport : Bool) (assumption : Classification)
  | potentialUpdate (wantReport : Bool)
  deriving DecidableEq, Repr

/-- The must analysis together with what its operations do to a cache set. -/
def analysis (T : CacheTraits) : Collecting.Analysis Bool MustOp LruMaxAgeAbstractCache
    (CacheSet ℕ T.associativity) Fault where
  start := new T
  step
    | .update tag wantReport assumption, s =>
      (update T s tag wantReport assumption).map Prod.fst
    | .potentialUpdate wantReport, s => (potentialUpdate T s wantReport).map Prod.fst
  join := join T
  described assumeAnEmptyCache := if assumeAnEmptyCache then {CacheSet.empty} else Set.univ
  concrete
    | .update tag _ _, c, c' => c' = c.access tag
    | .potentialUpdate _, c, c' => c' = c ∨ ∃ tag, c' = c.access tag

/-- Hits are assumed only for tags that really are cached. -/
def Legal (T : CacheTraits) :
    MustOp → LruMaxAgeAbstractCache → Set (CacheSet ℕ T.associativity) → Prop
  | .update tag _ assumption, _, K => assumesHit T assumption = true → ∀ c ∈ K, tag ∈ c
  | .potentialUpdate _, _, _ => True

/-- A well-formed state that stands for all sets of `K`. -/
def Describes (T : CacheTraits) (s : LruMaxAgeAbstractCache)
    (K : Set (CacheSet ℕ T.associativity)) : Prop :=
  K.Nonempty ∧ ∃ l, Holds T.associativity s l ∧ WellFormed T.associativity l ∧
    ∀ c ∈ K, Bounds l c

theorem describes_new (T : CacheTraits) (assumeAnEmptyCache : Bool) :
    Describes T (new T assumeAnEmptyCache) ((analysis T).described assumeAnEmptyCache) := by
  refine ⟨⟨CacheSet.empty, ?_⟩, [], holds_new _, wellFormed_nil, ?_⟩
  · cases assumeAnEmptyCache <;> simp [analysis]
  · intro c _ e he
    exact absurd he List.not_mem_nil

/-- An update leaves a state that stands for the sets after the access. It reports
the tags whose entries it drops. -/
theorem Describes.update {K : Set (CacheSet ℕ T.associativity)} (h : Describes T s K)
    (hA : 0 < T.associativity) {tag : ℕ} (wantReport : Bool) {assumption : Classification}
    (hop : assumesHit T assumption = true → ∀ c ∈ K, tag ∈ c) :
    ∃ s' evicted, update T s tag wantReport assumption = .ok (s', reportOf wantReport evicted) ∧
      Describes T s' ((analysis T).image (.update tag wantReport assumption) K) ∧
      (T.associativity < 256 → s'.Stores tag 0 ∧ ∀ t age, s.Stores t age → t ≠ tag →
        t ∈ evicted ∨ ∃ age', s'.Stores t age') := by
  obtain ⟨⟨c, hc⟩, l, hs, hw, hK⟩ := h
  have hlegal (hhit : assumesHit T assumption = true) (hne : ∀ e ∈ l, e.tag ≠ tag) :
      l.length < T.associativity :=
    (hK c hc).length_lt hw.distinct (hop hhit c hc) hne
  obtain ⟨s', l', evicted, hu, hs', hl', hreports⟩ :=
    update_spec hA hs hw ((hK c hc).counting hw.distinct) tag wantReport assumption hlegal
  refine ⟨s', evicted, hu, ⟨⟨c.access tag, c, hc, rfl⟩, l', hs', hl'.wellFormed, ?_⟩, ?_⟩
  · rintro _ ⟨d, hd, rfl⟩
    apply (hK d hd).access hA _ hl'.mem
    exact within_effectiveAge (hK d hd) tag assumption fun hhit => hop hhit d hd
  · intro hsmall
    refine ⟨(stores_iff hs' tag 0).mpr (hl'.of_mem hsmall _ (.inl rfl)), fun t age ht hne => ?_⟩
    have he := (stores_iff hs t age).mp ht
    rcases hreports hsmall _ he with hev | hlt
    · exact .inl hev
    · exact .inr ⟨_, (stores_iff hs' t _).mpr
        (hl'.of_mem hsmall _ (.inr ⟨⟨t, age⟩, he, hne, rfl, hlt⟩))⟩

/-- The same for an unknown access, or none. -/
theorem Describes.potentialUpdate {K : Set (CacheSet ℕ T.associativity)} (h : Describes T s K)
    (wantReport : Bool) :
    ∃ s' evicted, potentialUpdate T s wantReport = .ok (s', reportOf wantReport evicted) ∧
      Describes T s' ((analysis T).image (.potentialUpdate wantReport) K) ∧
      ∀ t age, s.Stores t age → t ∈ evicted ∨ ∃ age', s'.Stores t age' := by
  obtain ⟨⟨c, hc⟩, l, hs, hw, hK⟩ := h
  obtain ⟨s', l', evicted, hu, hs', hw', hl', hreports⟩ := potentialUpdate_spec hs hw wantReport
  refine ⟨s', evicted, hu, ⟨⟨c, c, hc, .inl rfl⟩, l', hs', hw', ?_⟩, ?_⟩
  · rintro d' ⟨d, hd, hd'⟩ e he
    obtain ⟨f, hf, rfl, hlt⟩ := (hl' e).mp he
    have hfd := hK d hd f hf
    rcases hd' with rfl | ⟨tag, rfl⟩
    · exact hfd.mono (Nat.le_succ _)
    · exact hfd.access_succ hlt
  · intro t age ht
    have he := (stores_iff hs t age).mp ht
    apply (hreports _ he).imp_right
    intro hlt
    exact ⟨_, (stores_iff hs' t _).mpr ((hl' _).mpr ⟨_, he, rfl, hlt⟩)⟩

/-- What one operation preserves. -/
theorem describes_step (hA : 0 < T.associativity) (op : MustOp) (s : LruMaxAgeAbstractCache)
    (K : Set (CacheSet ℕ T.associativity)) (h : Describes T s K) (hop : Legal T op s K) :
    ∃ s', (analysis T).step op s = .ok s' ∧ Describes T s' ((analysis T).image op K) := by
  cases op with
  | update tag wantReport assumption =>
    obtain ⟨s', evicted, hu, hs', _⟩ := h.update hA wantReport hop
    exact ⟨s', by simp [analysis, hu, Except.map], hs'⟩
  | potentialUpdate wantReport =>
    obtain ⟨s', evicted, hu, hs', _⟩ := h.potentialUpdate wantReport
    exact ⟨s', by simp [analysis, hu, Except.map], hs'⟩

/-- A state stands for any of the sets it stands for. -/
theorem Describes.mono {K L : Set (CacheSet ℕ T.associativity)} (h : Describes T s K)
    (hL : L.Nonempty) (hsub : L ⊆ K) : Describes T s L := by
  obtain ⟨_, l, hs, hw, hK⟩ := h
  exact ⟨hL, l, hs, hw, fun c hc => hK c (hsub hc)⟩

/-- A stored tag is cached. -/
theorem Describes.mem_of_stores {K : Set (CacheSet ℕ T.associativity)} (h : Describes T s K)
    {c : CacheSet ℕ T.associativity} (hc : c ∈ K) {tag age : ℕ} (ht : s.Stores tag age) :
    tag ∈ c := by
  obtain ⟨_, l, hs, _, hK⟩ := h
  exact (hK c hc _ ((stores_iff hs tag age).mp ht)).1

/-- The age of a tag that is not stored is the associativity. -/
theorem Describes.getMaxAge_eq {K : Set (CacheSet ℕ T.associativity)} (h : Describes T s K)
    (tag : ℕ) : (∃ age, s.Stores tag age ∧ getMaxAge T s tag = .ok age) ∨
      getMaxAge T s tag = .ok T.associativity := by
  obtain ⟨_, l, hs, hw, _⟩ := h
  by_cases hfound : ∃ e ∈ l, e.tag = tag
  · obtain ⟨e, he, rfl⟩ := hfound
    exact .inl ⟨e.age, (stores_iff hs e.tag e.age).mpr he, getMaxAge_found hs hw.distinct he⟩
  · exact .inr (getMaxAge_absent hs fun e he h => hfound ⟨e, he, h⟩)

/-- What a join preserves. -/
theorem describes_join (s t : LruMaxAgeAbstractCache) (K L : Set (CacheSet ℕ T.associativity))
    (hs : Describes T s K) (ht : Describes T t L) :
    ∃ u, (analysis T).join s t = .ok u ∧ Describes T u (K ∪ L) ∧
      ∀ tag age age', s.Stores tag age → t.Stores tag age' → ∃ age'', u.Stores tag age'' := by
  obtain ⟨⟨c, hc⟩, p, hp, hpw, hK⟩ := hs
  obtain ⟨_, q, hq, hqw, hL⟩ := ht
  obtain ⟨u, l, hu, hl, hlw, hmem⟩ := join_spec hp hq hpw hqw
  refine ⟨u, hu, ⟨⟨c, .inl hc⟩, l, hl, hlw, ?_⟩, ?_⟩
  · intro d hd e he
    obtain ⟨f, hf, g, hg, hft, hgt, hage⟩ := (hmem e).mp he
    rcases hd with hd | hd
    · exact hft ▸ (hK d hd f hf).mono (hage ▸ le_max_left _ _)
    · exact hgt ▸ (hL d hd g hg).mono (hage ▸ le_max_right _ _)
  · intro tag age age' hf hg
    exact ⟨max age age', (stores_iff hl _ _).mpr ((hmem ⟨tag, max age age'⟩).mpr
      ⟨_, (stores_iff hp _ _).mp hf, _, (stores_iff hq _ _).mp hg, rfl, rfl, rfl⟩)⟩

/-- Classifications of a state that stands for `c` hold of `c`. -/
theorem Describes.classify_sound {K : Set (CacheSet ℕ T.associativity)} (h : Describes T s K)
    {c : CacheSet ℕ T.associativity} (hc : c ∈ K) {M : Multicore} {tag index : ℕ}
    (hM : M.conflicts T tag index = 0) :
    (classify T M s tag index = .ok .clHit → tag ∈ c) ∧
      (classify T M s tag index = .ok .clMiss → tag ∉ c) := by
  obtain ⟨_, l, hs, hw, hK⟩ := h
  by_cases hfound : ∃ e ∈ l, e.tag = tag
  · obtain ⟨e, he, rfl⟩ := hfound
    have hA : T.associativity < 256 := hw.small.resolve_right (List.ne_nil_of_mem he)
    have hage := hw.age_lt e he
    rw [classify_found hs hw.distinct he, hM, Nat.add_zero, toUnsigned_of_lt (by omega),
      if_neg (by omega)]
    exact ⟨fun _ => (hK c hc e he).1, fun h => absurd h (by decide)⟩
  · have hne : ∀ e ∈ l, e.tag ≠ tag := fun e he h => hfound ⟨e, he, h⟩
    rw [classify_absent hs hne]
    split_ifs with hlen
    · refine ⟨fun h => absurd h (by decide), fun _ hmem => ?_⟩
      exact absurd ((hK c hc).length_lt hw.distinct hmem hne) (by omega)
    · exact ⟨fun h => absurd h (by decide), fun h => absurd h (by decide)⟩

/-- Every run that assumes hits only for cached tags succeeds. Each tag its
result stores is cached, at a position of at most its age, in every cache set
the run describes, and the classifications without interference hold there. -/
theorem mustRun_sound (T : CacheTraits) (hA : 1 ≤ T.associativity)
    (r : Collecting.Run Bool MustOp) (hr : (analysis T).Every (Legal T) r) :
    ∃ s, (analysis T).eval r = .ok s ∧ ∀ c ∈ (analysis T).collect r,
      (∀ tag age, s.Stores tag age → c.Within tag age) ∧
      ∀ M tag index, M.conflicts T tag index = 0 →
        (classify T M s tag index = .ok .clHit → tag ∈ c) ∧
        (classify T M s tag index = .ok .clMiss → tag ∉ c) := by
  obtain ⟨s, hs, hdesc⟩ := Collecting.Analysis.Run.sound (Describes T) (describes_new T)
    (describes_step hA)
    (fun s t K L hs ht => (describes_join s t K L hs ht).imp fun u h => ⟨h.1, h.2.1⟩) r hr
  refine ⟨s, hs, fun c hc => ⟨?_, fun M tag index hM => hdesc.classify_sound hc hM⟩⟩
  obtain ⟨_, l, hl, _, hK⟩ := hdesc
  intro tag age hstores
  exact hK c hc _ ((stores_iff hl tag age).mp hstores)

/-- A run with all operations, one of them an update that assumes a hit. -/
theorem mustRun_sound_twoWays :
    let T : CacheTraits := ⟨16, 2, 4, false, false, 1, 5⟩
    let hit : Collecting.Run Bool MustOp :=
      .step (.step (.start true) (.update 7 false .clUnknown)) (.update 7 true .clHit)
    let r : Collecting.Run Bool MustOp := .step (.join hit (.start false)) (.potentialUpdate true)
    ∃ s, (analysis T).eval r = .ok s ∧ ∀ c ∈ (analysis T).collect r,
      (∀ tag age, s.Stores tag age → c.Within tag age) ∧
      ∀ M tag index, M.conflicts T tag index = 0 →
        (classify T M s tag index = .ok .clHit → tag ∈ c) ∧
        (classify T M s tag index = .ok .clMiss → tag ∉ c) := by
  intro T hit r
  apply mustRun_sound T (by decide) r
  refine ⟨⟨⟨⟨trivial, fun _ _ h => absurd h (by decide)⟩, ?_⟩, trivial⟩, fun _ _ => trivial⟩
  rintro s _ _ _ ⟨c, _, rfl⟩
  exact c.mem_access_self 7 (by decide)

end LruMaxAgeAbstractCache

end Llvmta
