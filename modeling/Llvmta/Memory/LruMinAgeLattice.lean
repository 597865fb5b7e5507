import Llvmta.Library.LruPreemption
import Llvmta.Memory.CompositionalAbstractCache
import Llvmta.Memory.LatticeCaches
import Llvmta.Memory.LruMinAgeRepresentation
import Llvmta.Memory.LruMinAgeSoundness

/-!
# The lattice of the may analysis

The bounds of a join are exactly the lower ones of its operands. As a state is determined by
its bounds, the states form a join semilattice, the order of which is the one that `lessequal`
computes with a join. The cache of an exact access stands for what the access does to the
concrete caches.
-/

namespace Llvmta

open Checked AgedTag Lru

namespace LruMinAgeAbstractCache

variable {T : CacheTraits} {x y z : LruMinAgeAbstractCache}

/-- The bounds of a join are the minima of the bounds. -/
theorem getMinAge_join (hx : WellFormed T x) (hy : WellFormed T y) (h : join x y = .ok z)
    (tag : ℕ) : getMinAge z tag = min (getMinAge x tag) (getMinAge y tag) := by
  obtain ⟨u, hu, hw, himplicit, hle, hmem⟩ := join_spec hx hy
  obtain rfl : u = z := Except.ok.inj (hu.symm.trans h)
  apply le_antisymm
  · exact le_min (hle tag).1 (hle tag).2
  · by_cases hfound : ∃ e ∈ u.explicitTags, e.tag = tag
    · obtain ⟨e, he, rfl⟩ := hfound
      rw [getMinAge_of_mem hw.distinct he]
      rcases hmem e he with hex | hey
      · rw [getMinAge_of_mem hx.distinct hex]
        exact min_le_left _ _
      · rw [getMinAge_of_mem hy.distinct hey]
        exact min_le_right _ _
    · rw [getMinAge_of_absent fun e he htag => hfound ⟨e, he, htag⟩, himplicit]
      exact min_le_min (hx.getMinAge_le tag) (hy.getMinAge_le tag)

/-- The states of the may analysis of addresses: their tags are those of addresses. -/
structure OfAddresses (T : CacheTraits) (s : LruMinAgeAbstractCache) : Prop where
  wellFormed : WellFormed T s
  tag_le : ∀ e ∈ s.explicitTags, e.tag ≤ getTag T (2 ^ 32 - 1)

abbrev State (T : CacheTraits) : Type := {s : LruMinAgeAbstractCache // OfAddresses T s}

theorem State.ext_getMinAge {x y : State T} (h : ∀ tag, getMinAge x.1 tag = getMinAge y.1 tag) :
    x = y :=
  Subtype.ext (equals_iff.mp ((equals_iff_getMinAge x.2.wellFormed y.2.wellFormed).mpr h))

theorem OfAddresses.join (hx : OfAddresses T x) (hy : OfAddresses T y) (h : join x y = .ok z) :
    OfAddresses T z := by
  obtain ⟨u, hu, hw, _, _, hmem⟩ := join_spec hx.wellFormed hy.wellFormed
  obtain rfl : u = z := Except.ok.inj (hu.symm.trans h)
  exact ⟨hw, fun e he => (hmem e he).elim (hx.tag_le e) (hy.tag_le e)⟩

/-- The join, which always returns. -/
def State.join (x y : State T) : State T :=
  match h : LruMinAgeAbstractCache.join x.1 y.1 with
  | .ok z => ⟨z, x.2.join y.2 h⟩
  | .error _ => x

theorem State.join_eq (x y : State T) :
    LruMinAgeAbstractCache.join x.1 y.1 = .ok (x.join y).1 := by
  obtain ⟨u, hu, _⟩ := join_spec x.2.wellFormed y.2.wellFormed
  unfold State.join
  split
  · next h => exact h
  · next h =>
    rw [hu] at h
    cases h

@[simp] theorem State.getMinAge_join (x y : State T) (tag : ℕ) :
    getMinAge (x.join y).1 tag = min (getMinAge x.1 tag) (getMinAge y.1 tag) :=
  LruMinAgeAbstractCache.getMinAge_join x.2.wellFormed y.2.wellFormed (x.join_eq y) tag

/-- Lower bounds are higher in the order. -/
instance : SemilatticeSup (State T) where
  le x y := ∀ tag, getMinAge y.1 tag ≤ getMinAge x.1 tag
  le_refl x tag := le_rfl
  le_trans x y z hxy hyz tag := (hyz tag).trans (hxy tag)
  le_antisymm x y hxy hyx := State.ext_getMinAge fun tag => le_antisymm (hyx tag) (hxy tag)
  sup := State.join
  le_sup_left x y tag := by simp
  le_sup_right x y tag := by simp
  sup_le x y z hxz hyz tag := by simpa using ⟨hxz tag, hyz tag⟩

theorem State.le_iff {x y : State T} :
    x ≤ y ↔ ∀ tag, getMinAge y.1 tag ≤ getMinAge x.1 tag := Iff.rfl

/-- `lessequal`: a copy joined with `y` is compared to `y`. -/
def lessequal (x y : LruMinAgeAbstractCache) : Except Fault Bool := do
  let copy ← LruMinAgeAbstractCache.join x y
  .ok (equals copy y)

/-- The comparison decides the order. -/
theorem State.lessequal_iff (x y : State T) :
    ∃ b, lessequal x.1 y.1 = .ok b ∧ (b = true ↔ x ≤ y) := by
  refine ⟨equals (x.join y).1 y.1, ?_, ?_⟩
  · rw [lessequal, x.join_eq y, ok_bind]
  · rw [equals_iff, ← sup_eq_right]
    exact ⟨fun h => Subtype.ext h, fun h => congrArg Subtype.val h⟩

/-- The tag of an address is at most that of the last one. -/
theorem tag_le_of_getTagOf {addr : AbstractAddress} {tag : ℕ} (h : getTagOf T addr = .ok tag) :
    tag ≤ getTag T (2 ^ 32 - 1) := by
  obtain ⟨_, _, h⟩ := bind_eq_ok.mp h
  cases h
  have hlt := addr.interval.lower_le.trans_lt addr.interval.upper_lt
  exact getTag_mono (Nat.le_sub_one_of_lt hlt)

variable (T) in
/-- The may analysis keeps its states. -/
theorem keepsStates (M : Multicore) : KeepsStates (setAnalysis T M) (OfAddresses T) where
  new assumeAnEmptyCache := ⟨wellFormed_new assumeAnEmptyCache, by simp [setAnalysis, new]⟩
  update s addr load_store wantReport assumption res hs hres := by
    obtain ⟨tag, htag, hres⟩ := bind_eq_ok.mp hres
    obtain ⟨s', evicted, hs', hupdated, _⟩ := update_spec hs.wellFormed tag wantReport assumption
    rw [hs'] at hres
    cases hres
    refine ⟨hupdated.wellFormed, fun e he => ?_⟩
    rcases hupdated.tag_of_mem he with heq | ⟨f, hf, heq⟩
    · rw [heq]
      exact tag_le_of_getTagOf htag
    · rw [← heq]
      exact hs.tag_le f hf
  potentialUpdate s addr load_store wantReport res hs hres := by
    have hres' : LruMinAgeAbstractCache.potentialUpdate T s addr.interval wantReport =
        .ok (res.1, res.2) := hres
    refine ⟨(potentialUpdate_spec hs.wellFormed hres').wellFormed, fun e he => ?_⟩
    rcases tag_of_potentialUpdate hres' he with he | hle
    · exact hs.tag_le e he
    · exact hle.trans (getTag_mono (Nat.le_sub_one_of_lt addr.interval.upper_lt))
  join := State.join_eq
  equals x y := by
    change (x.1 == y.1) = true ↔ x = y
    rw [beq_iff_eq, Subtype.ext_iff]

end LruMinAgeAbstractCache

/-! ## The concrete caches -/

/-- An access to some address of an interval. -/
def AddressAccess (T : CacheTraits) (addr : AbstractAddress)
    (k k' : ℕ → CacheSet ℕ T.associativity) : Prop :=
  ∃ a ∈ addr.interval, k' = cacheAccess (getindex T) (getTag T) k a

/-- A cache of the may analysis. -/
abbrev MayCache (T : CacheTraits) : Type := LatticeCache T (LruMinAgeAbstractCache.OfAddresses T)

namespace MayCache

variable {T : CacheTraits} {M : Multicore} {addr : AbstractAddress}

/-- The concrete caches in which no block is in front of its bound. -/
def describes (c : MayCache T) : Set (ℕ → CacheSet ℕ T.associativity) :=
  {k | ∀ i : Fin T.nSets, LruMinAgeAbstractCache.Bounds (c i).1 (k i)}

theorem describes_mono {c d : MayCache T} (h : c ≤ d) : describes c ⊆ describes d := by
  intro k hk i tag htag
  exact (h i tag).trans (hk i tag htag)

theorem describes_new :
    (fun _ => CacheSet.empty) ∈ describes
      (LatticeCache.new (LruMinAgeAbstractCache.keepsStates T M) true) := by
  intro i tag htag
  exact absurd htag (CacheSet.notMem_empty tag)

section Update

variable (hT : T.Geometry)

include hT

/-- The may analysis of a set returns. -/
theorem exists_setStep (load_store : AccessType) (assumption : Classification) (i : ℕ)
    {s : LruMinAgeAbstractCache} (hs : LruMinAgeAbstractCache.WellFormed T s) :
    ∃ s', AbstractCacheImpl.SetStep T (LruMinAgeAbstractCache.setAnalysis T M) addr load_store
      assumption i s s' := by
  unfold AbstractCacheImpl.SetStep
  split_ifs
  · obtain ⟨s', evicted, hs', _⟩ := LruMinAgeAbstractCache.update_spec hs
      (getTag T addr.interval.lower) false assumption
    have htag := getTagOf_lineAddress hT (addr.interval.lower_le.trans_lt addr.interval.upper_lt)
    have hupdate : (LruMinAgeAbstractCache.setAnalysis T M).update s
        (lineAddress T addr.interval.lower) load_store false assumption =
          LruMinAgeAbstractCache.update T s (getTag T addr.interval.lower) false assumption := by
      simp only [LruMinAgeAbstractCache.setAnalysis, htag, ok_bind]
    exact ⟨s', _, hupdate.trans hs'⟩
  · exact ⟨s, rfl⟩
  · by_cases hreach : AbstractCacheImpl.ReachesSet T addr.interval i
    · have hword : 1 < T.lineSize * T.nSets := by
        have := hT.word_le
        rw [Nat.mul_comm] at this
        omega
      obtain ⟨s', report, hs'⟩ := LruMinAgeAbstractCache.potentialUpdate_ok hs addr.interval false
        (LruMinAgeAbstractCache.getTag_ne_last hword addr.interval)
      exact ⟨s', fun _ => ⟨report, hs'⟩, fun hnot => absurd hreach hnot⟩
    · exact ⟨s, fun h => absurd h hreach, fun _ => rfl⟩

/-- An access to one set, seen from this or from another set. -/
theorem bounds_setStep {load_store : AccessType} {assumption : Classification} {i : ℕ}
    {s s' : LruMinAgeAbstractCache} (hs : LruMinAgeAbstractCache.WellFormed T s)
    (hstep : AbstractCacheImpl.SetStep T (LruMinAgeAbstractCache.setAnalysis T M) addr load_store
      assumption i s s') {k k' : ℕ → CacheSet ℕ T.associativity}
    (hk : LruMinAgeAbstractCache.Bounds s (k i)) (haccess : AddressAccess T addr k k') :
    LruMinAgeAbstractCache.Bounds s' (k' i) := by
  obtain ⟨a, ha, rfl⟩ := haccess
  unfold AbstractCacheImpl.SetStep at hstep
  unfold cacheAccess
  split_ifs at hstep with hline hindex
  · obtain ⟨htag, hset⟩ := eq_of_sameLine hT hline ha
    obtain ⟨report, hstep⟩ := hstep
    obtain ⟨tag, htagOf, hstep⟩ := bind_eq_ok.mp hstep
    rw [getTagOf_lineAddress hT (addr.interval.lower_le.trans_lt addr.interval.upper_lt),
      ← htag] at htagOf
    cases htagOf
    obtain ⟨t, evicted, ht, hupdated, _⟩ := LruMinAgeAbstractCache.update_spec hs (getTag T a)
      false assumption
    rw [ht] at hstep
    cases hstep
    obtain rfl : getindex T a = i := hset.trans hindex
    rw [Function.update_self]
    exact hk.access hs hupdated
  · obtain ⟨_, hset⟩ := eq_of_sameLine hT hline ha
    rw [hstep, Function.update_of_ne (by rw [hset]; exact Ne.symm hindex)]
    exact hk
  · by_cases hreach : AbstractCacheImpl.ReachesSet T addr.interval i
    · obtain ⟨report, hpotential⟩ := hstep.1 hreach
      have hlowered := LruMinAgeAbstractCache.potentialUpdate_spec hs hpotential
      by_cases hindex : getindex T a = i
      · subst hindex
        rw [Function.update_self]
        exact hk.access_lowered hlowered ⟨LruMinAgeAbstractCache.getTag_mono ha.1,
          LruMinAgeAbstractCache.getTag_mono ha.2⟩
      · rw [Function.update_of_ne (Ne.symm hindex)]
        exact hk.lowered hlowered
    · have hindex : i ≠ getindex T a := by
        rintro rfl
        exact hreach ⟨a, ha, rfl⟩
      rw [hstep.2 hreach, Function.update_of_ne hindex]
      exact hk

theorem describes_update (hexact : ExactAccess T addr) {load_store : AccessType} {c : MayCache T}
    {k k' : ℕ → CacheSet ℕ T.associativity} (hk : k ∈ describes c)
    (haccess : AddressAccess T addr k k') :
    k' ∈ describes (LatticeCache.update (LruMinAgeAbstractCache.keepsStates T M) c addr
      load_store) := by
  intro i
  have hstep : AbstractCacheImpl.SetStep T (LruMinAgeAbstractCache.setAnalysis T M) addr load_store
      .clUnknown i (c i).1 (LatticeCache.update (LruMinAgeAbstractCache.keepsStates T M) c addr
        load_store i).1 :=
    LatticeCache.setStep_update (LruMinAgeAbstractCache.keepsStates T M) hT hexact
      (fun i s hs => exists_setStep hT load_store .clUnknown i hs.wellFormed) i
  exact bounds_setStep hT (c i).2.wellFormed hstep (hk i) haccess

end Update

end MayCache

end Llvmta
