import Llvmta.Memory.Crpd.PreemptionCost
import Llvmta.Memory.LruMaxAgeLattice

/-!
# The unconstrained ages of a program

The unconstrained ages are the states of the must analysis at the vertices of the program. An
access that hits according to the state of its edge's source, updated by the accesses in front
of it, is guaranteed to hit: it does so in each run, whatever the cache contains at first.
-/

namespace Llvmta

open Checked Lru

namespace MustCache

variable {T : CacheTraits} (M : Multicore)

def classify (c : MustCache T) (addr : AbstractAddress) : Except Fault Classification :=
  AbstractCacheImpl.classify T (LruMaxAgeAbstractCache.setAnalysis T M) c.toCache addr

def update (c : MustCache T) (addr : AbstractAddress) : MustCache T :=
  LatticeCache.update (LruMaxAgeAbstractCache.keepsStates T M) c addr .load

/-- The accesses of an edge that are classified as hits. -/
def hitsAlong : MustCache T → List AbstractAddress → List Bool
  | _, [] => []
  | c, addr :: accesses =>
    decide (c.classify M addr = .ok .clHit) :: hitsAlong (c.update M addr) accesses

@[simp] theorem length_hitsAlong (c : MustCache T) (accesses : List AbstractAddress) :
    (c.hitsAlong M accesses).length = accesses.length := by
  induction accesses generalizing c with
  | nil => rfl
  | cons addr accesses ih => rw [hitsAlong, List.length_cons, ih, List.length_cons]

end MustCache

/-! ## Hits -/

/-- What is joined into a classification is below it. -/
theorem Classification.join_join_eq {x y z : Classification} (h : (x.join y).join z = z) :
    x.join z = z ∧ y.join z = z := by
  have hle {a b c : BitVec 8} (habc : a ||| b ||| c = c) : a ||| c = c := by
    calc a ||| c = a ||| (a ||| b ||| c) := by rw [habc]
      _ = a ||| b ||| c := by rw [← BitVec.or_assoc, ← BitVec.or_assoc, BitVec.or_self]
      _ = c := habc
  have hz : x.value ||| y.value ||| z.value = z.value := congrArg Classification.value h
  have hz' : y.value ||| x.value ||| z.value = z.value := by rw [BitVec.or_comm y.value, hz]
  constructor <;> simp [join, hle hz, hle hz']

section Classify

variable {T : CacheTraits} {M : Multicore} {σ : Type} {C : CacheSetAnalysis σ}

/-- In a loop that ends with a hit, each line is classified as a hit. -/
theorem classifyLoop_hit {c : AbstractCacheImpl σ} {upAligned : ℕ} (hup : upAligned < 2 ^ 32)
    {fuel lowAligned : ℕ} {result : Classification}
    (h : AbstractCacheImpl.classifyLoop T C c upAligned fuel lowAligned result = .ok .clHit) :
    result.join .clHit = .clHit ∧
    ∀ k, lowAligned + k * T.lineSize ≤ upAligned → ∃ set cl,
      read c.cacheSets (AbstractCacheImpl.getTagAndIndex T (lowAligned + k * T.lineSize)).2 =
        .ok set ∧
      C.classify set (.ofUnsigned (lowAligned + k * T.lineSize)) = .ok cl ∧
      cl.join .clHit = .clHit := by
  induction fuel generalizing lowAligned result with
  | zero => cases h
  | succ fuel ih =>
    rw [AbstractCacheImpl.classifyLoop] at h
    split_ifs at h with hround
    · obtain ⟨set, hset, h⟩ := bind_eq_ok.mp h
      obtain ⟨cl, hcl, h⟩ := bind_eq_ok.mp h
      obtain ⟨hjoin, hrest⟩ := ih h
      obtain ⟨hresult, hline⟩ := Classification.join_join_eq hjoin
      refine ⟨hresult, fun k hk => ?_⟩
      cases k with
      | zero =>
        rw [Nat.zero_mul, Nat.add_zero] at hk ⊢
        exact ⟨set, cl, hset, hcl, hline⟩
      | succ k =>
        have hnext : toUnsigned (lowAligned + T.lineSize) = lowAligned + T.lineSize := by
          apply Nat.mod_eq_of_lt
          rw [Nat.add_mul, Nat.one_mul] at hk
          omega
        have hadd : lowAligned + (k + 1) * T.lineSize =
            lowAligned + T.lineSize + k * T.lineSize := by ring
        rw [hnext] at hrest
        rw [hadd] at hk ⊢
        exact hrest k hk
    · cases h
      refine ⟨rfl, fun k hk => ?_⟩
      have hlow : lowAligned ≤ upAligned := (Nat.le_add_right _ _).trans hk
      exact absurd ⟨hlow, by decide⟩ hround

/-- A hit of a line has an entry. -/
theorem LruMaxAgeAbstractCache.exists_of_classify_hit {s : LruMaxAgeAbstractCache}
    {l : List AgedTag} (hs : Stored T s l) {line : ℕ} {cl : Classification}
    (h : (setAnalysis T M).classify s (.ofUnsigned line) = .ok cl)
    (hcl : cl.join .clHit = .clHit) : ∃ e ∈ l, e.tag = getTag T (toUnsigned line) := by
  obtain ⟨tag, htag, h⟩ := bind_eq_ok.mp h
  obtain ⟨index, _, h⟩ := bind_eq_ok.mp h
  obtain ⟨_, _, htag⟩ := bind_eq_ok.mp htag
  cases htag
  by_contra hnone
  have hne : ∀ e ∈ l, e.tag ≠ getTag T (toUnsigned line) := fun e he htag => hnone ⟨e, he, htag⟩
  have habsent : LruMaxAgeAbstractCache.classify T M s (getTag T (toUnsigned line)) index =
      .ok (if l.length = T.associativity then .clMiss else .clUnknown) :=
    classify_absent hs.holds hne
  rw [← Except.ok.inj (habsent.symm.trans h)] at hcl
  split_ifs at hcl
  · exact absurd hcl (by decide)
  · exact absurd hcl (by decide)

/-- An access that is classified as a hit finds entries for all its lines. -/
theorem MustCache.exists_of_classify_hit (hT : T.Geometry) {c : MustCache T}
    {addr : AbstractAddress} (h : c.classify M addr = .ok .clHit) {a : ℕ}
    (ha : a ∈ addr.interval) (i : Fin T.nSets) (hi : getindex T a = i) :
    ∃ e ∈ (c i).1.entries, e.tag = getTag T a := by
  rw [MustCache.classify, AbstractCacheImpl.classify] at h
  have hknown : ¬addr.isSameInterval .getUnknownAddress := by
    intro hunknown
    rw [if_pos hunknown] at h
    cases h
  rw [if_neg hknown] at h
  have hupper := addr.interval.upper_lt
  have hlower := addr.interval.lower_le.trans_lt hupper
  have haddr := ha.2.trans_lt hupper
  have hline {b : ℕ} (hb : b < 2 ^ 32) : alignToCacheline T b = b / T.lineSize * T.lineSize :=
    hT.getCachelineAddress_eq hb
  have hup : alignToCacheline T addr.interval.upper < 2 ^ 32 := getCachelineAddress_lt T _
  obtain ⟨_, hlines⟩ := classifyLoop_hit hup h
  have hvisit : alignToCacheline T addr.interval.lower +
      (a / T.lineSize - addr.interval.lower / T.lineSize) * T.lineSize =
        a / T.lineSize * T.lineSize := by
    rw [hline hlower, ← Nat.add_mul, Nat.add_sub_cancel' (Nat.div_le_div_right ha.1)]
  obtain ⟨set, cl, hset, hcl, hhit⟩ := hlines (a / T.lineSize - addr.interval.lower / T.lineSize)
    (by
      rw [hvisit, hline hupper]
      exact Nat.mul_le_mul_right _ (Nat.div_le_div_right ha.2))
  rw [hvisit] at hset hcl
  have hsame : a / T.lineSize * T.lineSize / T.lineSize = a / T.lineSize :=
    Nat.mul_div_cancel _ hT.lineSize_pos
  have hstart : toUnsigned (a / T.lineSize * T.lineSize) = a / T.lineSize * T.lineSize :=
    Nat.mod_eq_of_lt ((Nat.div_mul_le_self a T.lineSize).trans_lt haddr)
  have hindex : (AbstractCacheImpl.getTagAndIndex T (a / T.lineSize * T.lineSize)).2 = i := by
    rw [← hi, AbstractCacheImpl.getTagAndIndex, hsame, getindex]
  rw [hindex] at hset
  have hread := getElem?_of_read hset
  rw [c.getElem?_toCache i, Option.some_inj] at hread
  rw [← hread] at hcl
  obtain ⟨e, he, htag⟩ :=
    LruMaxAgeAbstractCache.exists_of_classify_hit (c i).2.stored hcl hhit
  refine ⟨e, he, ?_⟩
  rw [htag, hstart, getTag, getTag, hsame]

end Classify

namespace CacheRelatedPreemptionDelay

variable (T : CacheTraits) (M : Multicore) (G : Graph)
  (P : EdgeWeightProvider (List AbstractAddress))

/-- The must analysis of the program, along the edges or against them. -/
def mustAnalysis (backwards : Bool) : GraphIterator (MustCache T) Unit where
  domain := LatticeCache.domain (LruMaxAgeAbstractCache.keepsStates T M) T
  simpleGraph := G
  provider := P
  addInfo := none
  backwards := backwards

def computeUnconstrainedAges (backwards : Bool) (fuel : ℕ) :
    Except Fault (ℕ → Option (MustCache T)) :=
  (mustAnalysis T M G P backwards).runFixpointAnalysis fuel

variable {T}

/-- The accesses along a path that the ages guarantee to hit. -/
def guaranteedHits (ages : ℕ → Option (MustCache T)) (path : List GraphEdge) : List Bool :=
  path.flatMap fun edge =>
    match ages edge.1 with
    | some c => c.hitsAlong M (P.addresses edge)
    | none => (P.addresses edge).map fun _ => false

variable {M G P} {ages : ℕ → Option (MustCache T)} {path : List GraphEdge} {u v : ℕ}

theorem length_guaranteedHits :
    (guaranteedHits M P ages path).length = (path.flatMap P.addresses).length := by
  induction path with
  | nil => rfl
  | cons edge path ih =>
    rw [guaranteedHits, List.flatMap_cons, List.length_append, List.flatMap_cons,
      List.length_append, ← ih, guaranteedHits]
    cases ages edge.1 <;> simp

/-- Accesses on an edge and on the edges after it. -/
theorem Accesses.append_left {accesses accesses' : List AbstractAddress} {addresses : List ℕ}
    (h : Accesses (accesses ++ accesses') addresses) :
    ∃ as as', addresses = as ++ as' ∧ Accesses accesses as ∧ Accesses accesses' as' := by
  induction accesses generalizing addresses with
  | nil => exact ⟨[], addresses, rfl, .nil, h⟩
  | cons addr accesses ih =>
    cases h with
    | cons ha h =>
      obtain ⟨as, as', rfl, h₁, h₂⟩ := ih h
      exact ⟨_ :: as, as', rfl, .cons ha h₁, h₂⟩

theorem Accesses.length_eq {accesses : List AbstractAddress} {addresses : List ℕ}
    (h : Accesses accesses addresses) : addresses.length = accesses.length :=
  (List.Forall₂.length_eq h).symm

section Hits

variable (hT : T.Geometry) (hA : 0 < T.associativity)

include hT hA

/-- The accesses of an edge that are classified as hits do hit. -/
theorem hits_edge {accesses : List AbstractAddress} (hexact : ∀ addr ∈ accesses, ExactAccess T addr)
    {c : MustCache T} {k : ℕ → CacheSet ℕ T.associativity} (hk : k ∈ c.describes)
    {as : List ℕ} (has : Accesses accesses as) :
    cacheMarkedMisses (getindex T) (getTag T) k (as.zip (c.hitsAlong M accesses)) = 0 ∧
      as.foldl (cacheAccess (getindex T) (getTag T)) k ∈
        (accesses.foldl (MustCache.update M) c).describes := by
  induction has generalizing c k with
  | nil => exact ⟨rfl, hk⟩
  | @cons addr a accesses as ha has ih =>
    obtain ⟨haddr, hexact⟩ := List.forall_mem_cons.mp hexact
    have hstep : cacheAccess (getindex T) (getTag T) k a ∈ (c.update M addr).describes :=
      MustCache.describes_update hT hA haddr hk ⟨a, ha, rfl⟩
    obtain ⟨hrest, hdescribes⟩ := ih hexact hstep
    refine ⟨?_, hdescribes⟩
    rw [MustCache.hitsAlong, List.zip_cons_cons, cacheMarkedMisses, hrest, if_neg]
    rintro ⟨hhit, hmiss⟩
    have hlt : getindex T a < T.nSets := Nat.mod_lt _ hT.nSets_pos
    obtain ⟨e, he, htag⟩ := MustCache.exists_of_classify_hit hT (of_decide_eq_true hhit) ha
      ⟨getindex T a, hlt⟩ rfl
    have hwithin := hk ⟨getindex T a, hlt⟩ e he
    rw [htag] at hwithin
    exact hmiss hwithin.1

variable (hexact : ∀ addr ∈ edgeAccesses G P, ExactAccess T addr)

include hexact

/-- From a state that stands for the cache on, the guaranteed accesses hit. -/
theorem hits_walk (hages : (mustAnalysis T M G P false).HandsOn ages)
    (hwalk : G.Walk u path v) (hinner : ∀ edge ∈ path.tail, edge.1 ≠ 0) {c : MustCache T}
    (hc : ages u = some c) {k : ℕ → CacheSet ℕ T.associativity} (hk : k ∈ c.describes)
    {as : List ℕ} (has : Accesses (path.flatMap P.addresses) as) :
    cacheMarkedMisses (getindex T) (getTag T) k (as.zip (guaranteedHits M P ages path)) = 0 := by
  induction path generalizing u c k as with
  | nil =>
    cases has
    rfl
  | cons edge path ih =>
    obtain ⟨rfl, hedge, hrest⟩ := hwalk
    rw [List.flatMap_cons] at has
    obtain ⟨as₁, as₂, rfl, has₁, has₂⟩ := has.append_left
    have hexact₁ : ∀ addr ∈ P.addresses edge, ExactAccess T addr := fun addr haddr =>
      hexact addr (List.mem_flatMap.mpr ⟨edge, Graph.mem_edges.mpr hedge, haddr⟩)
    obtain ⟨hhits, hdescribes⟩ := hits_edge (M := M) hT hA hexact₁ hk has₁
    have hguaranteed : guaranteedHits M P ages (edge :: path) =
        c.hitsAlong M (P.addresses edge) ++ guaranteedHits M P ages path := by
      rw [guaranteedHits, List.flatMap_cons, hc, guaranteedHits]
    have hlength : as₁.length = (c.hitsAlong M (P.addresses edge)).length := by
      rw [has₁.length_eq, MustCache.length_hitsAlong]
    rw [hguaranteed, List.zip_append hlength, cacheMarkedMisses_append, hhits, Nat.zero_add,
      List.map_fst_zip hlength.le]
    cases path with
    | nil =>
      cases has₂
      rfl
    | cons next path =>
      have hne : edge.2 ≠ 0 := hrest.1 ▸ hinner next (by simp)
      obtain ⟨d, hd, hle⟩ := hages _ c hc edge.2 hedge hne
      have hkd := MustCache.describes_mono hle hdescribes
      exact ih hrest (fun e he => hinner e (List.mem_of_mem_tail he)) hd hkd has₂

/-- An access that the ages guarantee to hit does so in each run of the program, whatever the
cache contains at first. -/
theorem guaranteed_hits {fuel : ℕ}
    (hages : computeUnconstrainedAges T M G P false fuel = .ok ages)
    (hwalk : G.Walk 0 path v) (hinner : ∀ edge ∈ path.tail, edge.1 ≠ 0) {as : List ℕ}
    (has : Accesses (path.flatMap P.addresses) as) (k : ℕ → CacheSet ℕ T.associativity) :
    cacheMarkedMisses (getindex T) (getTag T) k (as.zip (guaranteedHits M P ages path)) = 0 := by
  obtain ⟨⟨c, hc, hle⟩, hhandsOn⟩ := GraphIterator.handsOn_of_run hages
  have hk : k ∈ c.describes := MustCache.describes_mono hle (MustCache.describes_new k)
  exact hits_walk hT hA hexact hhandsOn hwalk hinner hc hk has

end Hits

/-- The block that is reused on the second edge is guaranteed to be cached there. -/
theorem guaranteed_hits_reusedBlock :
    let T := fourSets 2
    let M : Multicore := ⟨false, 0, [], fun _ => []⟩
    let G := Graph.ofEdges [(0, 1), (1, 2), (2, 0)]
    let path : List GraphEdge := [(0, 1), (1, 2), (2, 0)]
    ∃ ages, computeUnconstrainedAges T M G reusedBlock false 10 = .ok ages ∧
      guaranteedHits M reusedBlock ages path = [false, true, false] ∧
      ∀ k : ℕ → CacheSet ℕ T.associativity,
        cacheMarkedMisses (getindex T) (getTag T) k [(24, false), (24, true), (88, false)] = 0 := by
  intro T M G path
  have hcomputed : (computeUnconstrainedAges T M G reusedBlock false 10 >>= fun ages =>
      .ok (guaranteedHits M reusedBlock ages path)) = .ok [false, true, false] := by
    decide +kernel
  obtain ⟨ages, hages, hcomputed⟩ := bind_eq_ok.mp hcomputed
  have hflags : guaranteedHits M reusedBlock ages path = [false, true, false] :=
    Except.ok.inj hcomputed
  refine ⟨ages, hages, hflags, fun k => ?_⟩
  have hwalk : G.Walk 0 path 0 := by decide
  have has : Accesses (path.flatMap reusedBlock.addresses) [24, 24, 88] :=
    .cons ⟨by decide, by decide⟩ (.cons ⟨by decide, by decide⟩
      (.cons ⟨by decide, by decide⟩ .nil))
  have hhits := guaranteed_hits (geometry_fourSets 2) (by decide) (by decide) hages hwalk
    (by decide) has k
  rwa [hflags] at hhits

end CacheRelatedPreemptionDelay

end Llvmta
