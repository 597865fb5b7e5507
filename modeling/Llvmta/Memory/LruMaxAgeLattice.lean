import Llvmta.Memory.LruMinAgeLattice
import Llvmta.Memory.LruSharedCaches

/-!
# The lattice of the must analysis

The bounds of a join are exactly the higher ones of its operands. The array elements behind the
last entry are not seen by any operation; with these cleared, a state is determined by its
bounds, and the states form a join semilattice, the order of which is the one that `lessequal`
computes with a join.
-/

namespace Llvmta

open Checked AgedTag Lru

namespace LruMaxAgeAbstractCache

variable {T : CacheTraits} {M : Multicore} {s t : LruMaxAgeAbstractCache} {l l' : List AgedTag}

/-! ## Cleared states -/

/-- Arrays with the entries `l` and nothing else. -/
def ofEntries (A : ℕ) (l : List AgedTag) : LruMaxAgeAbstractCache :=
  ⟨l.map tag ++ List.replicate (A - l.length) 0, l.map age ++ List.replicate (A - l.length) 0,
    l.length⟩

/-- The state without what is left behind its last entry. -/
def clear (A : ℕ) (s : LruMaxAgeAbstractCache) : LruMaxAgeAbstractCache := ofEntries A s.entries

theorem holds_ofEntries {A : ℕ} (h : l.length ≤ A) : Holds A (ofEntries A l) l where
  size_eq := rfl
  tags_eq := ⟨_, rfl, by simp [h]⟩
  ages_eq := ⟨_, rfl, by simp [h]⟩

theorem Stored.clear (h : Stored T s l) : Stored T (s.clear T.associativity) l where
  holds := by
    rw [LruMaxAgeAbstractCache.clear, h.holds.entries_eq]
    exact holds_ofEntries h.holds.length_le
  wellFormed := h.wellFormed
  counting := h.counting

/-- The states that are cleared. -/
structure Cleared (T : CacheTraits) (s : LruMaxAgeAbstractCache) : Prop where
  stored : Stored T s s.entries
  clear_eq : s.clear T.associativity = s

theorem Stored.cleared (h : Stored T s l) : Cleared T (s.clear T.associativity) := by
  have hentries : (s.clear T.associativity).entries = s.entries := by
    rw [h.clear.holds.entries_eq, h.holds.entries_eq]
  constructor
  · rw [hentries, h.holds.entries_eq]
    exact h.clear
  · rw [LruMaxAgeAbstractCache.clear, hentries, LruMaxAgeAbstractCache.clear]

theorem cleared_new (assumeAnEmptyCache : Bool) : Cleared T (new T assumeAnEmptyCache) where
  stored := by
    have h : Stored T (new T assumeAnEmptyCache) [] := stored_new assumeAnEmptyCache
    rwa [h.holds.entries_eq]
  clear_eq := by simp [clear, entries, ofEntries, new]

/-- The analysis with the results of its operations cleared. -/
def clearing (A : ℕ) (C : CacheSetAnalysis LruMaxAgeAbstractCache) :
    CacheSetAnalysis LruMaxAgeAbstractCache where
  new := C.new
  classify := C.classify
  update s addr load_store wantReport assumption := do
    let (s', report) ← C.update s addr load_store wantReport assumption
    .ok (s'.clear A, report)
  potentialUpdate s addr load_store wantReport := do
    let (s', report) ← C.potentialUpdate s addr load_store wantReport
    .ok (s'.clear A, report)
  join s t := do
    let u ← C.join s t
    .ok (u.clear A)
  equals := C.equals

/-- Clearing a result leaves it in its class. -/
theorem agree_clear {r r' : Except Fault (LruMaxAgeAbstractCache × Option UpdateReport)}
    (h : Agree (SameResult Same (storing T)) r r') :
    Agree (SameResult Same (storing T)) r
      (r' >>= fun res => .ok (res.1.clear T.associativity, res.2)) := by
  cases h with
  | ok h =>
    obtain ⟨hs, ⟨l, ht⟩, hsame, hreport⟩ := h
    exact .ok ⟨hs, ⟨l, ht.clear⟩, equivalence_same.trans hsame
      (same_of_holds ht.holds ht.clear.holds), hreport⟩
  | error e => exact .error e

/-- The analyses with and without clearing are not told apart by an update. -/
theorem clearing_update_agree (hs : s ∈ storing T) (ht : t ∈ storing T) (h : Same s t)
    (addr : AbstractAddress) (load_store : AccessType) (wantReport : Bool)
    (assumption : Classification) :
    Agree (SameResult Same (storing T))
      ((setAnalysis T M).update s addr load_store wantReport assumption)
      ((clearing T.associativity (setAnalysis T M)).update t addr load_store wantReport
        assumption) :=
  agree_clear (respects_same.update s hs t ht h addr load_store wantReport assumption)

theorem clearing_potentialUpdate_agree (hs : s ∈ storing T) (ht : t ∈ storing T) (h : Same s t)
    (addr : AbstractAddress) (load_store : AccessType) (wantReport : Bool) :
    Agree (SameResult Same (storing T))
      ((setAnalysis T M).potentialUpdate s addr load_store wantReport)
      ((clearing T.associativity (setAnalysis T M)).potentialUpdate t addr load_store
        wantReport) :=
  agree_clear (respects_same.potentialUpdate s hs t ht h addr load_store wantReport)

/-! ## Bounds -/

/-- The bound on the age of a tag. -/
def maxAge (T : CacheTraits) (s : LruMaxAgeAbstractCache) (tag : ℕ) : ℕ :=
  match s.entries.find? fun e => e.tag = tag with
  | some e => e.age
  | none => T.associativity

theorem Stored.maxAge_of_mem (h : Stored T s l) {e : AgedTag} (he : e ∈ l) :
    maxAge T s e.tag = e.age := by
  simp only [maxAge, h.holds.entries_eq, h.wellFormed.distinct.find?_tag he]

theorem Stored.maxAge_of_absent (h : Stored T s l) {tag : ℕ} (hne : ∀ e ∈ l, e.tag ≠ tag) :
    maxAge T s tag = T.associativity := by
  simp only [maxAge, h.holds.entries_eq, find?_tag_none hne]

/-- The bound is what the code returns. -/
theorem Stored.getMaxAge_eq (h : Stored T s l) (tag : ℕ) :
    getMaxAge T s tag = .ok (maxAge T s tag) := by
  by_cases hfound : ∃ e ∈ l, e.tag = tag
  · obtain ⟨e, he, rfl⟩ := hfound
    rw [getMaxAge_found h.holds h.wellFormed.distinct he, h.maxAge_of_mem he]
  · have hne : ∀ e ∈ l, e.tag ≠ tag := fun e he h => hfound ⟨e, he, h⟩
    rw [getMaxAge_absent h.holds hne, h.maxAge_of_absent hne]

theorem Stored.maxAge_le (h : Stored T s l) (tag : ℕ) : maxAge T s tag ≤ T.associativity := by
  by_cases hfound : ∃ e ∈ l, e.tag = tag
  · obtain ⟨e, he, rfl⟩ := hfound
    rw [h.maxAge_of_mem he]
    exact (h.wellFormed.age_lt e he).le
  · exact (h.maxAge_of_absent fun e he h => hfound ⟨e, he, h⟩).le

/-- The tags with a bound below the ways are those of the entries. -/
theorem Stored.maxAge_lt_iff (h : Stored T s l) {tag : ℕ} :
    maxAge T s tag < T.associativity ↔ ∃ e ∈ l, e.tag = tag ∧ e.age = maxAge T s tag := by
  constructor
  · intro hlt
    by_cases hfound : ∃ e ∈ l, e.tag = tag
    · obtain ⟨e, he, rfl⟩ := hfound
      exact ⟨e, he, rfl, (h.maxAge_of_mem he).symm⟩
    · rw [h.maxAge_of_absent fun e he h => hfound ⟨e, he, h⟩] at hlt
      exact absurd hlt (lt_irrefl _)
  · rintro ⟨e, he, _, hage⟩
    rw [← hage]
    exact h.wellFormed.age_lt e he

/-- The bounds of a join are the maxima of the bounds. -/
theorem Stored.maxAge_join (hs : Stored T s l) (ht : Stored T t l') {u : LruMaxAgeAbstractCache}
    (h : join T s t = .ok u) (tag : ℕ) :
    maxAge T u tag = max (maxAge T s tag) (maxAge T t tag) := by
  obtain ⟨v, o, hv, ho⟩ := hs.of_join ht
  obtain ⟨w, o', hw, ho', _, hmem⟩ := join_spec hs.holds ht.holds hs.wellFormed ht.wellFormed
  obtain rfl : v = u := Except.ok.inj (hv.symm.trans h)
  obtain rfl : w = v := Except.ok.inj (hw.symm.trans hv)
  obtain rfl : o' = o := ho'.entries_eq.symm.trans ho.holds.entries_eq
  by_cases hleft : ∃ f ∈ l, f.tag = tag
  · obtain ⟨f, hf, rfl⟩ := hleft
    by_cases hright : ∃ g ∈ l', g.tag = f.tag
    · obtain ⟨g, hg, htag⟩ := hright
      have he : (⟨f.tag, max f.age g.age⟩ : AgedTag) ∈ o' :=
        (hmem _).mpr ⟨f, hf, g, hg, rfl, htag, rfl⟩
      rw [hs.maxAge_of_mem hf, ← htag, ht.maxAge_of_mem hg, htag]
      exact ho.maxAge_of_mem he
    · have hnone : ∀ e ∈ o', e.tag ≠ f.tag := by
        intro e he heq
        obtain ⟨_, _, g, hg, _, hgt, _⟩ := (hmem e).mp he
        exact hright ⟨g, hg, hgt.trans heq⟩
      rw [ho.maxAge_of_absent hnone, ht.maxAge_of_absent fun g hg h => hright ⟨g, hg, h⟩,
        max_eq_right (hs.maxAge_le f.tag)]
  · have hnone : ∀ e ∈ o', e.tag ≠ tag := by
      intro e he heq
      obtain ⟨f, hf, _, _, hft, _⟩ := (hmem e).mp he
      exact hleft ⟨f, hf, hft.trans heq⟩
    rw [ho.maxAge_of_absent hnone, hs.maxAge_of_absent fun f hf h => hleft ⟨f, hf, h⟩,
      max_eq_left (ht.maxAge_le tag)]

/-! ## The lattice -/

abbrev State (T : CacheTraits) : Type := {s : LruMaxAgeAbstractCache // Cleared T s}

namespace State

variable {x y : State T}

theorem ext_maxAge (h : ∀ tag, maxAge T x.1 tag = maxAge T y.1 tag) : x = y := by
  have hbounds : ∀ tag, getMaxAge T x.1 tag = getMaxAge T y.1 tag := fun tag => by
    rw [x.2.stored.getMaxAge_eq, y.2.stored.getMaxAge_eq, h]
  have hequals := (x.2.stored.equals_iff_getMaxAge y.2.stored).mpr hbounds
  have hentries := (equals_iff x.2.stored.holds y.2.stored.holds).mp hequals
  apply Subtype.ext
  rw [← x.2.clear_eq, ← y.2.clear_eq, clear, clear, hentries]

/-- The join, which always returns, cleared. -/
def join (x y : State T) : State T :=
  match h : LruMaxAgeAbstractCache.join T x.1 y.1 with
  | .ok z => ⟨z.clear T.associativity, by
      obtain ⟨u, o, hu, ho⟩ := x.2.stored.of_join y.2.stored
      obtain rfl : u = z := Except.ok.inj (hu.symm.trans h)
      exact ho.cleared⟩
  | .error _ => x

theorem join_eq (x y : State T) :
    ∃ z, LruMaxAgeAbstractCache.join T x.1 y.1 = .ok z ∧ (x.join y).1 = z.clear T.associativity := by
  obtain ⟨u, o, hu, ho⟩ := x.2.stored.of_join y.2.stored
  refine ⟨u, hu, ?_⟩
  unfold join
  split
  · next z h =>
    obtain rfl : u = z := Except.ok.inj (hu.symm.trans h)
    rfl
  · next h =>
    rw [hu] at h
    cases h

@[simp] theorem maxAge_join (x y : State T) (tag : ℕ) :
    maxAge T (x.join y).1 tag = max (maxAge T x.1 tag) (maxAge T y.1 tag) := by
  obtain ⟨z, hz, heq⟩ := x.join_eq y
  obtain ⟨u, o, hu, ho⟩ := x.2.stored.of_join y.2.stored
  obtain rfl : u = z := Except.ok.inj (hu.symm.trans hz)
  rw [heq, ← x.2.stored.maxAge_join y.2.stored hz, maxAge, maxAge, ho.clear.holds.entries_eq,
    ho.holds.entries_eq]

end State

/-- Upper bounds are higher in the order. -/
instance : SemilatticeSup (State T) where
  le x y := ∀ tag, maxAge T x.1 tag ≤ maxAge T y.1 tag
  le_refl x tag := le_rfl
  le_trans x y z hxy hyz tag := (hxy tag).trans (hyz tag)
  le_antisymm x y hxy hyx := State.ext_maxAge fun tag => le_antisymm (hxy tag) (hyx tag)
  sup := State.join
  le_sup_left x y tag := by simp
  le_sup_right x y tag := by simp
  sup_le x y z hxz hyz tag := by simpa using ⟨hxz tag, hyz tag⟩

theorem State.le_iff {x y : State T} : x ≤ y ↔ ∀ tag, maxAge T x.1 tag ≤ maxAge T y.1 tag :=
  Iff.rfl

/-- `lessequal`: a copy joined with `y` is compared to `y`. -/
def lessequal (T : CacheTraits) (x y : LruMaxAgeAbstractCache) : Except Fault Bool := do
  let copy ← join T x y
  .ok (equals copy y)

/-- The comparison decides whether all bounds are at most those of `t`. -/
theorem Stored.lessequal_iff (hs : Stored T s l) (ht : Stored T t l') :
    ∃ b, lessequal T s t = .ok b ∧
      (b = true ↔ ∀ tag, maxAge T s tag ≤ maxAge T t tag) := by
  obtain ⟨u, o, hu, ho⟩ := hs.of_join ht
  refine ⟨equals u t, ?_, ?_⟩
  · rw [lessequal, hu, ok_bind]
  · rw [ho.equals_iff_getMaxAge ht]
    apply forall_congr'
    intro tag
    rw [ho.getMaxAge_eq, ht.getMaxAge_eq, hs.maxAge_join ht hu, Except.ok.injEq]
    exact max_eq_right_iff

variable (T M) in
/-- The must analysis keeps its states. -/
theorem keepsStates :
    KeepsStates (clearing T.associativity (setAnalysis T M)) (Cleared T) where
  new := cleared_new
  update s addr load_store wantReport assumption res hs hres := by
    obtain ⟨⟨s', report⟩, hs', hres⟩ := bind_eq_ok.mp hres
    obtain ⟨tag, _, hs'⟩ := bind_eq_ok.mp hs'
    cases hres
    obtain ⟨l', hl'⟩ := (hs.stored.of_update tag wantReport assumption).2 s' report hs'
    exact hl'.cleared
  potentialUpdate s addr load_store wantReport res hs hres := by
    obtain ⟨⟨s', report⟩, hs', hres⟩ := bind_eq_ok.mp hres
    cases hres
    obtain ⟨u, l', report', hu, hl'⟩ := hs.stored.of_potentialUpdate wantReport
    obtain ⟨rfl, _⟩ := Prod.mk.inj (Except.ok.inj (hu.symm.trans hs'))
    exact hl'.cleared
  join x y := by
    obtain ⟨z, hz, heq⟩ := State.join_eq x y
    have hsup : (x ⊔ y).1 = z.clear T.associativity := heq
    rw [hsup]
    simp only [clearing, setAnalysis, hz, ok_bind]
  equals x y := by
    rw [Subtype.ext_iff]
    have hiff := equals_iff x.2.stored.holds y.2.stored.holds
    constructor
    · intro h
      rw [← x.2.clear_eq, ← y.2.clear_eq, clear, clear, hiff.mp h]
    · intro h
      exact hiff.mpr (by rw [h])

theorem assumesHit_clUnknown : assumesHit T .clUnknown = false := by
  rw [assumesHit, Bool.or_eq_false_iff, Bool.and_eq_false_imp]
  exact ⟨rfl, fun _ => rfl⟩

/-- An update without assumption returns. -/
theorem Stored.update_unknown (h : Stored T s l) (hA : 0 < T.associativity) (tag : ℕ)
    (wantReport : Bool) :
    ∃ s' l' report, update T s tag wantReport .clUnknown = .ok (s', report) ∧ Stored T s' l' ∧
      Updated T (effectiveAge T .clUnknown tag l) tag l l' := by
  obtain ⟨s', l', evicted, hu, hs', hl', _⟩ := update_spec hA h.holds h.wellFormed h.counting tag
    wantReport .clUnknown fun hhit => by simp [assumesHit_clUnknown] at hhit
  have hcounting := hl'.counting h.wellFormed h.counting hs'.length_le
  exact ⟨s', l', _, hu, ⟨hs', hl'.wellFormed, hcounting⟩, hl'⟩

/-- What an access makes of the entries of the set `i`. -/
def EntriesStep (T : CacheTraits) (addr : AbstractAddress) (i : ℕ) (l l' : List AgedTag) : Prop :=
  if SameLine T addr then
    if getindex T addr.interval.lower = i then
      let tag := getTag T addr.interval.lower
      Updated T (effectiveAge T .clUnknown tag l) tag l l'
    else l' = l
  else
    (AbstractCacheImpl.ReachesSet T addr.interval i →
      ∀ e ∈ l', ∃ f ∈ l, e = ⟨f.tag, f.age + 1⟩ ∧ f.age + 1 < T.associativity) ∧
    (¬ AbstractCacheImpl.ReachesSet T addr.interval i → l' = l)

/-- The cleared analysis of a set returns, and does this to its entries. -/
theorem exists_setStep (hT : T.Geometry) (hA : 0 < T.associativity) {addr : AbstractAddress}
    (load_store : AccessType) (i : ℕ) (hs : Stored T s s.entries) :
    ∃ s', AbstractCacheImpl.SetStep T (clearing T.associativity (setAnalysis T M)) addr load_store
        .clUnknown i s s' ∧ EntriesStep T addr i s.entries s'.entries := by
  unfold AbstractCacheImpl.SetStep EntriesStep
  split_ifs
  · obtain ⟨s', l', report, hs', hl', hupdated⟩ :=
      hs.update_unknown hA (getTag T addr.interval.lower) false
    have htag := getTagOf_lineAddress hT (addr.interval.lower_le.trans_lt addr.interval.upper_lt)
    refine ⟨s'.clear T.associativity, ⟨report, ?_⟩, ?_⟩
    · simp only [clearing, setAnalysis, htag, ok_bind, hs']
    · rwa [hl'.clear.holds.entries_eq]
  · exact ⟨s, rfl, rfl⟩
  · by_cases hreach : AbstractCacheImpl.ReachesSet T addr.interval i
    · obtain ⟨s', l', evicted, hs', hl', hw', hmem, _⟩ :=
        potentialUpdate_spec hs.holds hs.wellFormed false
      obtain ⟨u, l'', _, hu, hstored⟩ := hs.of_potentialUpdate false
      obtain ⟨rfl, _⟩ := Prod.mk.inj (Except.ok.inj (hu.symm.trans hs'))
      refine ⟨u.clear T.associativity, ⟨fun _ => ⟨reportOf false evicted, ?_⟩,
        fun hnot => absurd hreach hnot⟩, fun _ => ?_, fun hnot => absurd hreach hnot⟩
      · simp only [clearing, setAnalysis, hs', ok_bind]
      · rw [hstored.clear.holds.entries_eq, ← hstored.holds.entries_eq, hl'.entries_eq]
        exact fun e he => (hmem e).mp he
    · exact ⟨s, ⟨fun h => absurd h hreach, fun _ => rfl⟩, fun h => absurd h hreach, fun _ => rfl⟩

/-- An entry is that of the accessed line, or its tag had an entry before. -/
theorem EntriesStep.tag_of_mem {addr : AbstractAddress} {i : ℕ} (h : EntriesStep T addr i l l')
    {e : AgedTag} (he : e ∈ l') : (∃ f ∈ l, f.tag = e.tag) ∨
      SameLine T addr ∧ getindex T addr.interval.lower = i ∧
        e.tag = getTag T addr.interval.lower := by
  unfold EntriesStep at h
  split_ifs at h with hline hindex
  · rcases h.mem e he with rfl | ⟨f, hf, _, rfl, _⟩
    · exact .inr ⟨hline, hindex, rfl⟩
    · exact .inl ⟨f, hf, rfl⟩
  · rw [h] at he
    exact .inl ⟨e, he, rfl⟩
  · by_cases hreach : AbstractCacheImpl.ReachesSet T addr.interval i
    · obtain ⟨f, hf, rfl, _⟩ := h.1 hreach e he
      exact .inl ⟨f, hf, rfl⟩
    · rw [h.2 hreach] at he
      exact .inl ⟨e, he, rfl⟩

/-- The entries bound the positions after the access. -/
theorem EntriesStep.bounds (hT : T.Geometry) (hA : 0 < T.associativity) {addr : AbstractAddress}
    {i : ℕ} (h : EntriesStep T addr i l l') {k k' : ℕ → CacheSet ℕ T.associativity}
    (hk : Bounds l (k i)) (haccess : AddressAccess T addr k k') : Bounds l' (k' i) := by
  obtain ⟨a, ha, rfl⟩ := haccess
  unfold EntriesStep at h
  unfold cacheAccess
  split_ifs at h with hline hindex
  · obtain ⟨htag, hset⟩ := eq_of_sameLine hT hline ha
    obtain rfl : getindex T a = i := hset.trans hindex
    rw [Function.update_self, htag]
    refine hk.access hA (fun hlt => ?_) h.mem
    refine within_effectiveAge hk _ .clUnknown (fun hhit => ?_) hlt
    simp [assumesHit_clUnknown] at hhit
  · obtain ⟨_, hset⟩ := eq_of_sameLine hT hline ha
    rw [h, Function.update_of_ne (by rw [hset]; exact Ne.symm hindex)]
    exact hk
  · by_cases hreach : AbstractCacheImpl.ReachesSet T addr.interval i
    · intro e he
      obtain ⟨f, hf, rfl, hlt⟩ := h.1 hreach e he
      by_cases hindex : getindex T a = i
      · subst hindex
        rw [Function.update_self]
        exact (hk f hf).access_succ hlt
      · rw [Function.update_of_ne (Ne.symm hindex)]
        exact (hk f hf).mono (Nat.le_succ _)
    · have hindex : i ≠ getindex T a := by
        rintro rfl
        exact hreach ⟨a, ha, rfl⟩
      rw [h.2 hreach, Function.update_of_ne hindex]
      exact hk

end LruMaxAgeAbstractCache

/-! ## The concrete caches -/

/-- A cache of the must analysis. -/
abbrev MustCache (T : CacheTraits) : Type := LatticeCache T (LruMaxAgeAbstractCache.Cleared T)

namespace MustCache

variable {T : CacheTraits} {M : Multicore} {addr : AbstractAddress}

/-- The concrete caches in which no block is behind its bound. -/
def describes (c : MustCache T) : Set (ℕ → CacheSet ℕ T.associativity) :=
  {k | ∀ i : Fin T.nSets, LruMaxAgeAbstractCache.Bounds (c i).1.entries (k i)}

theorem describes_mono {c d : MustCache T} (h : c ≤ d) : describes c ⊆ describes d := by
  intro k hk i e he
  have hd := (d i).2.stored
  have hle := h i e.tag
  rw [hd.maxAge_of_mem he] at hle
  obtain ⟨f, hf, htag, hage⟩ :=
    (c i).2.stored.maxAge_lt_iff.mp (hle.trans_lt (hd.wellFormed.age_lt e he))
  rw [← htag]
  exact (hk i f hf).mono (hage.le.trans hle)

theorem describes_new (k : ℕ → CacheSet ℕ T.associativity) :
    k ∈ describes (LatticeCache.new (LruMaxAgeAbstractCache.keepsStates T M) true) := by
  intro i e he
  have hnil : ((LatticeCache.new (LruMaxAgeAbstractCache.keepsStates T M) true :
      MustCache T) i).1.entries = [] := rfl
  rw [hnil] at he
  exact absurd he List.not_mem_nil

section Update

variable (hT : T.Geometry) (hA : 0 < T.associativity) (hexact : ExactAccess T addr)

include hT hA hexact

/-- An exact access changes the entries of each set on its own. -/
theorem entriesStep_update (load_store : AccessType) (c : MustCache T) (i : Fin T.nSets) :
    LruMaxAgeAbstractCache.EntriesStep T addr i (c i).1.entries
      (LatticeCache.update (LruMaxAgeAbstractCache.keepsStates T M) c addr load_store i).1.entries := by
  have hsteps : ∀ (i : ℕ) s, LruMaxAgeAbstractCache.Cleared T s → ∃ s',
      AbstractCacheImpl.SetStep T (LruMaxAgeAbstractCache.clearing T.associativity
        (LruMaxAgeAbstractCache.setAnalysis T M)) addr load_store .clUnknown i s s' ∧
      LruMaxAgeAbstractCache.EntriesStep T addr i s.entries s'.entries := fun i s hs =>
    LruMaxAgeAbstractCache.exists_setStep hT hA load_store i hs.stored
  have hstep := LatticeCache.setStep_update (LruMaxAgeAbstractCache.keepsStates T M) hT hexact
    (c := c) (fun i s hs => (hsteps i s hs).imp fun _ h => h.1) i
  obtain ⟨s', hs', hentries⟩ := hsteps i (c i).1 (c i).2
  rwa [hstep.unique hs']

theorem describes_update {load_store : AccessType} {c : MustCache T}
    {k k' : ℕ → CacheSet ℕ T.associativity} (hk : k ∈ describes c)
    (haccess : AddressAccess T addr k k') :
    k' ∈ describes (LatticeCache.update (LruMaxAgeAbstractCache.keepsStates T M) c addr
      load_store) := fun i =>
  (entriesStep_update hT hA hexact load_store c i).bounds hT hA (hk i) haccess

end Update

end MustCache

end Llvmta
