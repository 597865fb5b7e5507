import Llvmta.Library.CollectingRun
import Llvmta.Library.LruSet
import Llvmta.Memory.LruMinAgeJoin

/-!
# Soundness of the may analysis

A state of the may analysis stands for the cache sets in which no tag is held in
front of its bound. This relation is kept by every operation that has a result;
the only one that has none is an unknown access whose interval ends in the
greatest tag a 32-bit number can have.
-/

namespace Llvmta

open Checked AgedTag Lru

namespace LruMinAgeAbstractCache

variable {T : CacheTraits} {A : ℕ}

/-- No tag is cached in front of its bound. -/
def Bounds (s : LruMinAgeAbstractCache) (c : CacheSet ℕ A) : Prop :=
  ∀ t ∈ c, getMinAge s t ≤ c.age t

theorem Bounds.access {s s' : LruMinAgeAbstractCache} {c : CacheSet ℕ A} (h : Bounds s c)
    (hw : WellFormed T s) {tag : ℕ} (hu : Updated T (getMinAge s tag) tag s s') :
    Bounds s' (c.access tag) := by
  intro t ht
  by_cases hne : t = tag
  · subst t
    rw [hu.getMinAge_self]
    exact Nat.zero_le _
  · have hle := hu.getMinAge_le hw hne
    obtain ⟨htc, hage⟩ := CacheSet.mem_of_mem_access hne ht
    have hbound := h t htc
    split_ifs at hle with ha
    · exact hle.trans (CacheSet.succ_le_age_access hne ht hbound (h tag) ha)
    · omega

theorem Bounds.lowered {s s' : LruMinAgeAbstractCache} {c : CacheSet ℕ A} (h : Bounds s c)
    {touches : ℕ → Prop} (hl : Lowered T touches s s') : Bounds s' c :=
  fun t ht => (hl.le t).trans (h t ht)

theorem Bounds.access_lowered {s s' : LruMinAgeAbstractCache} {c : CacheSet ℕ A}
    (h : Bounds s c) {touches : ℕ → Prop} (hl : Lowered T touches s s') {tag : ℕ}
    (htag : touches tag) : Bounds s' (c.access tag) := by
  intro t ht
  by_cases hne : t = tag
  · subst t
    rw [hl.eq_zero tag htag]
    exact Nat.zero_le _
  · obtain ⟨htc, hage⟩ := CacheSet.mem_of_mem_access hne ht
    exact (h.lowered hl t htc).trans hage

/-! ## Classification -/

theorem Bounds.classify_sound {s : LruMinAgeAbstractCache} (hw : WellFormed T s)
    {c : CacheSet ℕ T.associativity} (h : Bounds s c) {M : Multicore} {tag index : ℕ}
    (hM : M.conflicts T tag index = 0) (hmiss : classify T M s tag index = .clMiss) : tag ∉ c := by
  have hage : T.associativity ≤ getMinAge s tag := by
    have hlt := hw.implicit_lt
    unfold classify at hmiss
    simp only [hM, Nat.add_zero, toUnsigned_of_lt (by omega : s.ageOfImplicitTags < 4294967296)]
      at hmiss
    by_cases himplicit : s.ageOfImplicitTags < T.associativity
    · rw [if_pos himplicit] at hmiss
      exact absurd hmiss (by decide)
    rw [if_neg himplicit] at hmiss
    unfold getMinAge
    cases hl : lookup s.explicitTags tag with
    | none =>
      dsimp only
      omega
    | some e =>
      have he := hw.age_lt e (List.mem_of_find?_eq_some hl)
      rw [hl] at hmiss
      dsimp only at hmiss ⊢
      rw [toUnsigned_of_lt (by omega)] at hmiss
      by_contra hle
      rw [if_neg hle] at hmiss
      exact absurd hmiss (by decide)
  intro hmem
  have hbound := h tag hmem
  have := CacheSet.age_lt_ways hmem
  omega

theorem mem_takeWhile_age {l : List AgedTag} (hs : Sorted l) {e : AgedTag} (he : e ∈ l) {n : ℤ}
    (hn : (e.age : ℤ) ≤ n) : e ∈ l.takeWhile fun f => (f.age : ℤ) ≤ n := by
  induction l with
  | nil => exact absurd he List.not_mem_nil
  | cons f l ih =>
    obtain ⟨hfl, hl⟩ := sorted_cons.mp hs
    have hfe : f.age ≤ e.age := by
      rcases List.mem_cons.mp he with rfl | he
      · exact le_rfl
      · exact (hfl e he).age_le
    have hf : decide ((f.age : ℤ) ≤ n) = true := decide_eq_true (by omega)
    rw [List.takeWhile_cons_of_pos (p := fun f : AgedTag => decide ((f.age : ℤ) ≤ n)) hf]
    rcases List.mem_cons.mp he with rfl | he
    · exact List.mem_cons_self
    · exact List.mem_cons_of_mem _ (ih hl he)

/-- The tags that may have age at most `ASSOCIATIVITY - 1` include all cached ones. -/
theorem Bounds.mem_getTagsWithMaxMinAge {s : LruMinAgeAbstractCache} (hw : WellFormed T s)
    {c : CacheSet ℕ T.associativity} (h : Bounds s c) {t : ℕ} (ht : t ∈ c) :
    (getTagsWithMaxMinAge s ((T.associativity : ℤ) - 1)).count t = 1 := by
  have hbound := h t ht
  have hlt := CacheSet.age_lt_ways ht
  unfold getTagsWithMaxMinAge
  split_ifs with himplicit
  · rfl
  · have hfound : ∃ e ∈ s.explicitTags, e.tag = t := by
      by_contra hnone
      rw [getMinAge_of_absent fun e he h => hnone ⟨e, he, h⟩] at hbound
      omega
    obtain ⟨e, he, rfl⟩ := hfound
    rw [getMinAge_of_mem hw.distinct he] at hbound
    have hmem := List.mem_map_of_mem (f := AgedTag.tag)
      (mem_takeWhile_age hw.sorted he (n := (T.associativity : ℤ) - 1) (by omega))
    simp only [ImplicitSet.count, Bool.false_eq_true, if_false, if_pos hmem]

/-! ## Runs -/

inductive MayOp where
  | update (tag : ℕ) (wantReport : Bool) (assumption : Classification)
  | potentialUpdate (itv : AddressInterval) (wantReport : Bool)
  deriving DecidableEq, Repr

/-- The may analysis of the cache set `index` together with what its operations
do to that set. -/
def analysis (T : CacheTraits) (index : ℕ) : Collecting.Analysis Bool MayOp LruMinAgeAbstractCache
    (CacheSet ℕ T.associativity) Fault where
  start := new T
  step
    | .update tag wantReport assumption, s =>
      (update T s tag wantReport assumption).map Prod.fst
    | .potentialUpdate itv wantReport, s => (potentialUpdate T s itv wantReport).map Prod.fst
  join := join
  described assumeAnEmptyCache := if assumeAnEmptyCache then {CacheSet.empty} else Set.univ
  concrete
    | .update tag _ _, c, c' => c' = c.access tag
    | .potentialUpdate itv _, c, c' =>
      c' = c ∨ ∃ addr ∈ itv, getindex T addr = index ∧ c' = c.access (getTag T addr)

/-- A well-formed state that bounds all sets of `K`. -/
def Describes (T : CacheTraits) (s : LruMinAgeAbstractCache)
    (K : Set (CacheSet ℕ T.associativity)) : Prop :=
  WellFormed T s ∧ ∀ c ∈ K, Bounds s c

theorem getTag_mono {a b : ℕ} (h : a ≤ b) : getTag T a ≤ getTag T b :=
  Nat.div_le_div_right (Nat.div_le_div_right h)

theorem describes_new (index : ℕ) (assumeAnEmptyCache : Bool) :
    Describes T (new T assumeAnEmptyCache) ((analysis T index).described assumeAnEmptyCache) := by
  refine ⟨wellFormed_new assumeAnEmptyCache, ?_⟩
  intro c hc t ht
  cases assumeAnEmptyCache with
  | true =>
    obtain rfl : c = CacheSet.empty := hc
    exact absurd ht (CacheSet.notMem_empty t)
  | false => exact Nat.zero_le _

theorem describes_step {index : ℕ} (op : MayOp) (s s' : LruMinAgeAbstractCache)
    (K : Set (CacheSet ℕ T.associativity)) (h : Describes T s K)
    (hs' : (analysis T index).step op s = .ok s') :
    Describes T s' ((analysis T index).image op K) := by
  obtain ⟨hw, hK⟩ := h
  cases op with
  | update tag wantReport assumption =>
    obtain ⟨u, evicted, hu, hupd, _⟩ := update_spec hw tag wantReport assumption
    simp only [analysis, hu, Except.map, Except.ok.injEq] at hs'
    subst hs'
    refine ⟨hupd.wellFormed, ?_⟩
    rintro _ ⟨c, hc, rfl⟩
    exact (hK c hc).access hw hupd
  | potentialUpdate itv wantReport =>
    cases hp : potentialUpdate T s itv wantReport with
    | error e => simp [analysis, hp, Except.map] at hs'
    | ok res =>
      obtain ⟨u, report⟩ := res
      simp only [analysis, hp, Except.map, Except.ok.injEq] at hs'
      subst hs'
      have hl := potentialUpdate_spec hw hp
      refine ⟨hl.wellFormed, ?_⟩
      rintro d ⟨c, hc, rfl | ⟨addr, haddr, _, rfl⟩⟩
      · exact (hK d hc).lowered hl
      · exact (hK c hc).access_lowered hl ⟨getTag_mono haddr.1, getTag_mono haddr.2⟩

theorem describes_join {index : ℕ} (s t u : LruMinAgeAbstractCache)
    (K L : Set (CacheSet ℕ T.associativity)) (hs : Describes T s K) (ht : Describes T t L)
    (hu : (analysis T index).join s t = .ok u) : Describes T u (K ∪ L) := by
  obtain ⟨u', hu', hw, _, hle, _⟩ := join_spec hs.1 ht.1
  obtain rfl : u' = u := Except.ok.inj (hu'.symm.trans hu)
  refine ⟨hw, ?_⟩
  rintro c (hc | hc) tag htag
  · exact (hle tag).1.trans (hs.2 c hc tag htag)
  · exact (hle tag).2.trans (ht.2 c hc tag htag)

/-- With more than one line in the address space of a set no tag is the last one. -/
theorem getTag_ne_last (h : 1 < T.lineSize * T.nSets) (itv : AddressInterval) :
    getTag T itv.upper ≠ 2 ^ 32 - 1 := by
  have hupper := itv.upper_lt
  have hle : getTag T itv.upper ≤ itv.upper / 2 := by
    rw [getTag, Nat.div_div_eq_div_mul]
    exact Nat.div_le_div_left h (by decide)
  omega

/-- Every run has a result. -/
theorem mayRun_ok {index : ℕ} (h : 1 < T.lineSize * T.nSets) (r : Collecting.Run Bool MayOp) :
    ∃ s, (analysis T index).eval r = .ok s := by
  have hstep (op : MayOp) (s : LruMinAgeAbstractCache) (K : Set (CacheSet ℕ T.associativity))
      (hw : WellFormed T s) (_ : True) : ∃ s', (analysis T index).step op s = .ok s' ∧
        WellFormed T s' := by
    cases op with
    | update tag wantReport assumption =>
      obtain ⟨u, evicted, hu, hupd, _⟩ := update_spec hw tag wantReport assumption
      exact ⟨u, by simp [analysis, hu, Except.map], hupd.wellFormed⟩
    | potentialUpdate itv wantReport =>
      obtain ⟨u, report, hu⟩ := potentialUpdate_ok hw itv wantReport (getTag_ne_last h itv)
      exact ⟨u, by simp [analysis, hu, Except.map], (potentialUpdate_spec hw hu).wellFormed⟩
  have hjoin (s t : LruMinAgeAbstractCache) (K L : Set (CacheSet ℕ T.associativity))
      (hs : WellFormed T s) (ht : WellFormed T t) :
      ∃ u, (analysis T index).join s t = .ok u ∧ WellFormed T u := by
    obtain ⟨u, hu, hw, _, _⟩ := join_spec hs ht
    exact ⟨u, hu, hw⟩
  obtain ⟨s, hs, _⟩ := Collecting.Analysis.Run.sound (S := analysis T index)
    (fun s _ => WellFormed T s) wellFormed_new hstep hjoin r (Collecting.Analysis.every_true r)
  exact ⟨s, hs⟩

/-- In the result of a run, the bound of a tag is at most the position at which a
cache set described by the run holds it. So what is classified as a miss is in
no such set, and the tags that may be in the set include those that are. -/
theorem mayRun_sound (T : CacheTraits) (index : ℕ) (r : Collecting.Run Bool MayOp) :
    (1 < T.lineSize * T.nSets → ∃ s, (analysis T index).eval r = .ok s) ∧
    ∀ s, (analysis T index).eval r = .ok s → ∀ c ∈ (analysis T index).collect r,
      (∀ t ∈ c, getMinAge s t ≤ c.age t) ∧
      (∀ M tag i, M.conflicts T tag i = 0 → classify T M s tag i = .clMiss → tag ∉ c) ∧
      ∀ t ∈ c, (getTagsWithMaxMinAge s ((T.associativity : ℤ) - 1)).count t = 1 := by
  refine ⟨fun h => mayRun_ok h r, ?_⟩
  intro s hs c hc
  obtain ⟨hw, hK⟩ := Collecting.Analysis.Run.sound_of_ok (S := analysis T index) (Describes T)
    (describes_new index) describes_step describes_join r s hs
  have hbounds := hK c hc
  exact ⟨hbounds, fun M tag i hM hmiss => hbounds.classify_sound hw hM hmiss,
    fun t ht => hbounds.mem_getTagsWithMaxMinAge hw ht⟩

/-- A run with all operations from both initial states. -/
theorem mayRun_sound_twoWays :
    let T : CacheTraits := ⟨16, 2, 4, false, false, 1, 5⟩
    let updated : Collecting.Run Bool MayOp := .step (.start true) (.update 7 true .clUnknown)
    let r : Collecting.Run Bool MayOp :=
      .step (.join updated (.start false)) (.potentialUpdate ⟨16, 100, by decide, by decide⟩ true)
    ∃ s, (analysis T 1).eval r = .ok s ∧ ∀ c ∈ (analysis T 1).collect r,
      (∀ t ∈ c, getMinAge s t ≤ c.age t) ∧
      (∀ M tag i, M.conflicts T tag i = 0 → classify T M s tag i = .clMiss → tag ∉ c) ∧
      ∀ t ∈ c, (getTagsWithMaxMinAge s ((T.associativity : ℤ) - 1)).count t = 1 := by
  intro T updated r
  obtain ⟨hok, hsound⟩ := mayRun_sound T 1 r
  obtain ⟨s, hs⟩ := hok (by decide)
  exact ⟨s, hs, hsound s hs⟩

end LruMinAgeAbstractCache

end Llvmta
