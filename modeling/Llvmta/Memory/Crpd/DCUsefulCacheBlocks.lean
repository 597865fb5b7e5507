import Llvmta.Memory.Crpd.UnconstrainedAges

/-!
# Definitely cached useful blocks

A block is a definitely cached useful block of a program point if it is guaranteed to be cached
there, and on a path to a later access that is guaranteed to hit. They are collected backwards
from the accesses, and intersected at each vertex with the must cache there. After a preemption
the rest of a run has at most as many misses as accesses that are not guaranteed to hit, and one
for each of these blocks.
-/

namespace Llvmta

open Checked Lru

namespace LruMaxAgeAbstractCache

/-- The loop over the entries from `i` on, of which `n` are left. -/
def collectTags (s : LruMaxAgeAbstractCache) (maxAge : ℤ) :
    ℕ → ℕ → ImplicitSet → Except Fault ImplicitSet
  | 0, _, res => .ok res
  | n + 1, i, res => do
    let age ← read s.ages i
    if maxAge < age then .ok res
    else
      let tag ← read s.tags i
      collectTags s maxAge n (i + 1) (res.insert tag)

def getTagsWithMaxMaxAge (s : LruMaxAgeAbstractCache) (maxAge : ℤ) : Except Fault ImplicitSet :=
  collectTags s maxAge s.size 0 ⟨[], false⟩

variable {T : CacheTraits} {s : LruMaxAgeAbstractCache} {l : List AgedTag}

/-- With the last age of a set, the loop collects all entries. -/
theorem collectTags_spec {A : ℕ} (hs : Holds A s l) (hage : ∀ e ∈ l, e.age < A)
    {done rest : List AgedTag} (hl : l = done ++ rest) {res : ImplicitSet} (hres : res.isUniverse = false) :
    ∃ res', collectTags s ((A : ℤ) - 1) rest.length done.length res = .ok res' ∧
      res'.isUniverse = false ∧ ∀ t, t ∈ res' ↔ t ∈ res ∨ ∃ e ∈ rest, e.tag = t := by
  induction rest generalizing done res with
  | nil => exact ⟨res, rfl, hres, by simp⟩
  | cons e rest ih =>
    obtain ⟨_, ⟨u, ht, _⟩, ⟨v, ha, _⟩⟩ := hs
    have hlt := hage e (by simp [hl])
    have hreadAge : read s.ages done.length = .ok e.age := by
      rw [ha, hl]
      simpa using read_append (done.map AgedTag.age) (rest.map AgedTag.age ++ v) e.age
        (i := done.length) (by simp)
    have hreadTag : read s.tags done.length = .ok e.tag := by
      rw [ht, hl]
      simpa using read_append (done.map AgedTag.tag) (rest.map AgedTag.tag ++ u) e.tag
        (i := done.length) (by simp)
    have hinsert : (res.insert e.tag).isUniverse = false := by
      rw [ImplicitSet.isUniverse_insert, hres]
    obtain ⟨res', hok, hpositive, hmem⟩ := @ih (done ++ [e]) (by simp [hl]) _ hinsert
    refine ⟨res', ?_, hpositive, fun t => ?_⟩
    · rw [List.length_cons, collectTags, hreadAge, ok_bind, if_neg (by omega), hreadTag, ok_bind]
      simpa using hok
    · rw [hmem, ImplicitSet.mem_insert, List.exists_mem_cons_iff, @eq_comm _ t]
      tauto

/-- The tags with a bound below the number of ways are those of all entries. -/
theorem Stored.getTagsWithMaxMaxAge (h : Stored T s l) :
    ∃ tags, LruMaxAgeAbstractCache.getTagsWithMaxMaxAge s ((T.associativity : ℤ) - 1) = .ok tags ∧
      ∀ t, t ∈ tags ↔ ∃ e ∈ l, e.tag = t := by
  have hempty : (⟨[], false⟩ : ImplicitSet).isUniverse = false := rfl
  obtain ⟨tags, hok, _, hmem⟩ := collectTags_spec h.holds h.wellFormed.age_lt
    (List.nil_append l).symm hempty
  refine ⟨tags, ?_, fun t => ?_⟩
  · rw [LruMaxAgeAbstractCache.getTagsWithMaxMaxAge, h.holds.size_eq]
    exact hok
  · rw [hmem]
    simp [ImplicitSet.mem_iff]

end LruMaxAgeAbstractCache

@[ext] structure DCUsefulCacheBlocks where
  accessedTags : Finset ℕ
  deriving DecidableEq

namespace DCUsefulCacheBlocks

variable (T : CacheTraits)

def new (_assumeAnEmptyCache : Bool) : DCUsefulCacheBlocks := ⟨∅⟩

/-- The accessed tag is added, then only the tags of the must cache stay. -/
def update (s : DCUsefulCacheBlocks) (addr : AbstractAddress)
    (AddInfo : Option LruMaxAgeAbstractCache) (wantReport : Bool) :
    Except Fault (DCUsefulCacheBlocks × Option UpdateReport) :=
  match AddInfo with
  | none => .error (.assertion "AddInfo")
  | some LruMust => do
    let MustCache ← LruMust.getTagsWithMaxMaxAge ((T.associativity : ℤ) - 1)
    let tag ← getTagOf T addr
    .ok (⟨(insert tag s.accessedTags).filter fun t => 0 < MustCache.count t⟩,
      if wantReport then some .generic else none)

def join (s y : DCUsefulCacheBlocks) : DCUsefulCacheBlocks := ⟨s.accessedTags ∪ y.accessedTags⟩

/-- The analysis of a cache set for which the must cache is known. -/
def setAnalysis (AddInfo : Option LruMaxAgeAbstractCache) :
    CacheSetAnalysis DCUsefulCacheBlocks where
  new := new
  classify _ _ := .ok .clUnknown
  update s addr _ wantReport _ := s.update T addr AddInfo wantReport
  potentialUpdate _ _ _ _ := .error (.assertion "DC useful does not support imprecise updates")
  join s y := .ok (s.join y)
  equals s y := decide (s = y)

def getDCUsefulBlocks (s : DCUsefulCacheBlocks) : ImplicitSet :=
  ⟨s.accessedTags.sort (· ≤ ·), false⟩

variable {T}

theorem mem_getDCUsefulBlocks {s : DCUsefulCacheBlocks} {t : ℕ} :
    t ∈ s.getDCUsefulBlocks ↔ t ∈ s.accessedTags := by
  rw [ImplicitSet.mem_of_positive rfl, getDCUsefulBlocks, Finset.mem_sort]

/-- The states of the analysis of addresses. -/
def OfAddresses (T : CacheTraits) (s : DCUsefulCacheBlocks) : Prop :=
  ∀ t ∈ s.accessedTags, t ≤ getTag T (2 ^ 32 - 1)

abbrev State (T : CacheTraits) : Type := {s : DCUsefulCacheBlocks // OfAddresses T s}

instance : SemilatticeSup (State T) where
  le x y := x.1.accessedTags ⊆ y.1.accessedTags
  le_refl x := Finset.Subset.refl _
  le_trans x y z hxy hyz := hxy.trans hyz
  le_antisymm x y hxy hyx := Subtype.ext (DCUsefulCacheBlocks.ext (hxy.antisymm hyx))
  sup x y := ⟨x.1.join y.1, fun t ht => (Finset.mem_union.mp ht).elim (x.2 t) (y.2 t)⟩
  le_sup_left x y := Finset.subset_union_left
  le_sup_right x y := Finset.subset_union_right
  sup_le x y z hxz hyz := Finset.union_subset hxz hyz

variable (T) in
theorem keepsStates (AddInfo : Option LruMaxAgeAbstractCache) :
    KeepsStates (setAnalysis T AddInfo) (OfAddresses T) where
  new _ t ht := absurd ht (Finset.notMem_empty t)
  update s addr load_store wantReport assumption res hs hres := by
    cases AddInfo with
    | none => cases hres
    | some LruMust =>
      obtain ⟨MustCache, _, hres⟩ := bind_eq_ok.mp hres
      obtain ⟨tag, htag, hres⟩ := bind_eq_ok.mp hres
      cases hres
      intro t ht
      rcases Finset.mem_insert.mp (Finset.mem_filter.mp ht).1 with rfl | ht
      · exact LruMinAgeAbstractCache.tag_le_of_getTagOf htag
      · exact hs t ht
  potentialUpdate s addr load_store wantReport res hs hres := by cases hres
  join x y := rfl
  equals x y := by
    change decide (x.1 = y.1) = true ↔ x = y
    rw [decide_eq_true_eq, Subtype.ext_iff]

end DCUsefulCacheBlocks

theorem ImplicitSet.count_pos_iff {s : ImplicitSet} {x : ℕ} : x ∈ s ↔ 0 < s.count x := by
  have hle : s.count x ≤ 1 := by
    unfold count
    dsimp only
    split_ifs <;> omega
  change s.count x = 1 ↔ _
  omega

/-! ## Caches -/

/-- A cache of the analysis. -/
abbrev DCCache (T : CacheTraits) : Type := LatticeCache T (DCUsefulCacheBlocks.OfAddresses T)

namespace DCCache

variable {T : CacheTraits}

/-- `AD->at(index)`: the must information of the set that an access in one line updates. An access
in several lines uses none. -/
def depsOf (AD : Option (MustCache T)) (addr : AbstractAddress) : Option LruMaxAgeAbstractCache :=
  AD.bind fun E => E.toCache.cacheSets[(AbstractCacheImpl.getTagAndIndex T addr.interval.lower).2]?

def update (c : DCCache T) (addr : AbstractAddress) (AD : Option (MustCache T)) : DCCache T :=
  LatticeCache.update (DCUsefulCacheBlocks.keepsStates T (depsOf AD addr)) c addr .load

/-- The domain of these caches, which depends on the must cache of a vertex. -/
def domain (T : CacheTraits) : CacheDomain (DCCache T) (Option (MustCache T)) where
  new := LatticeCache.new (DCUsefulCacheBlocks.keepsStates T none)
  update c addr _ AD := c.update addr AD.join

/-- The block `t` of the set `i` has an entry in the must cache. -/
def Guaranteed (E : MustCache T) (i : Fin T.nSets) (t : ℕ) : Prop :=
  ∃ e ∈ (E i).1.entries, e.tag = t

theorem depsOf_some (E : MustCache T) {addr : AbstractAddress}
    (hlt : getindex T addr.interval.lower < T.nSets) :
    depsOf (some E) addr = some (E ⟨_, hlt⟩).1 := by
  rw [depsOf, Option.bind_some]
  exact E.getElem?_toCache ⟨_, hlt⟩

/-- The update of a set keeps what the must cache guarantees. -/
theorem exists_update_line (hT : T.Geometry) {addr : AbstractAddress} (E : MustCache T)
    (hlt : getindex T addr.interval.lower < T.nSets) :
    ∃ tags : ImplicitSet, (∀ t, 0 < tags.count t ↔ Guaranteed E ⟨_, hlt⟩ t) ∧
      ∀ s, (DCUsefulCacheBlocks.setAnalysis T (depsOf (some E) addr)).update s
          (lineAddress T addr.interval.lower) .load false .clUnknown =
        .ok (⟨(insert (getTag T addr.interval.lower) s.accessedTags).filter fun t =>
          0 < tags.count t⟩, none) := by
  have htagOf := getTagOf_lineAddress hT (addr.interval.lower_le.trans_lt addr.interval.upper_lt)
  obtain ⟨tags, htags, hmem⟩ := (E ⟨_, hlt⟩).2.stored.getTagsWithMaxMaxAge
  refine ⟨tags, fun t => ?_, fun s => ?_⟩
  · rw [← ImplicitSet.count_pos_iff]
    exact hmem t
  · simp only [DCUsefulCacheBlocks.setAnalysis, DCUsefulCacheBlocks.update, depsOf_some E hlt,
      htags, htagOf, ok_bind, Bool.false_eq_true, if_false]

/-- A guaranteed block that has been collected, or that is accessed, is collected. -/
theorem mem_update (hT : T.Geometry) {addr : AbstractAddress} (hline : SameLine T addr)
    {E : MustCache T} {c : DCCache T} {i : Fin T.nSets} {t : ℕ} (ht : Guaranteed E i t)
    (h : t ∈ (c i).1.accessedTags ∨
      getindex T addr.interval.lower = i ∧ getTag T addr.interval.lower = t) :
    t ∈ (c.update addr (some E) i).1.accessedTags := by
  have hlt : getindex T addr.interval.lower < T.nSets := Nat.mod_lt _ hT.nSets_pos
  obtain ⟨tags, hcount, hupdate⟩ := exists_update_line hT E hlt
  have hsteps : ∀ (j : ℕ) s, DCUsefulCacheBlocks.OfAddresses T s → ∃ s',
      AbstractCacheImpl.SetStep T (DCUsefulCacheBlocks.setAnalysis T (depsOf (some E) addr)) addr
        .load .clUnknown j s s' := by
    intro j s _
    unfold AbstractCacheImpl.SetStep
    simp only [if_pos hline]
    split_ifs
    · exact ⟨_, none, hupdate s⟩
    · exact ⟨s, rfl⟩
  have hstep := LatticeCache.setStep_update
    (DCUsefulCacheBlocks.keepsStates T (depsOf (some E) addr)) hT (.inl hline) (c := c) hsteps i
  unfold AbstractCacheImpl.SetStep at hstep
  rw [if_pos hline] at hstep
  unfold update
  split_ifs at hstep with hindex
  · obtain ⟨report, hstep⟩ := hstep
    rw [hupdate] at hstep
    obtain ⟨hstep, _⟩ := Prod.mk.inj (Except.ok.inj hstep)
    obtain rfl : (⟨_, hlt⟩ : Fin T.nSets) = i := Fin.ext hindex
    rw [← hstep, Finset.mem_filter, Finset.mem_insert, hcount]
    refine ⟨?_, ht⟩
    rcases h with h | ⟨_, rfl⟩
    · exact .inr h
    · exact .inl rfl
  · rw [hstep]
    exact h.resolve_right fun hset => hindex hset.1

/-- Updates keep guaranteed blocks and collect those that are accessed. -/
theorem mem_foldl_update (hT : T.Geometry) {accesses : List AbstractAddress}
    (hline : ∀ addr ∈ accesses, SameLine T addr) {E : MustCache T} {c : DCCache T}
    {i : Fin T.nSets} {t : ℕ} (ht : Guaranteed E i t)
    (h : t ∈ (c i).1.accessedTags ∨ ∃ addr ∈ accesses,
      getindex T addr.interval.lower = i ∧ getTag T addr.interval.lower = t) :
    t ∈ (accesses.foldl (fun c addr => c.update addr (some E)) c i).1.accessedTags := by
  induction accesses generalizing c with
  | nil => exact h.resolve_right (by simp)
  | cons addr accesses ih =>
    obtain ⟨haddr, hline⟩ := List.forall_mem_cons.mp hline
    apply ih hline
    rw [List.exists_mem_cons_iff, ← or_assoc] at h
    exact h.imp_left (mem_update hT haddr ht)

theorem Guaranteed.mono {c d : MustCache T} (hle : c ≤ d) {i : Fin T.nSets} {t : ℕ}
    (h : Guaranteed d i t) : Guaranteed c i t := by
  obtain ⟨e, he, rfl⟩ := h
  have hage := hle i e.tag
  rw [(d i).2.stored.maxAge_of_mem he] at hage
  have hlt := hage.trans_lt ((d i).2.stored.wellFormed.age_lt e he)
  obtain ⟨f, hf, htag, _⟩ := (c i).2.stored.maxAge_lt_iff.mp hlt
  exact ⟨f, hf, htag⟩

end DCCache

end Llvmta
