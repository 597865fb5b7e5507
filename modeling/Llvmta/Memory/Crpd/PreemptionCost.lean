import Llvmta.AnalysisFramework.GraphIteratorWalks
import Llvmta.Memory.Crpd.EvictingCacheBlocks
import Llvmta.Memory.Crpd.UsefulCacheBlocks
import Llvmta.Memory.LruMinAgeLattice

/-!
# What a preemption costs

The useful blocks of a program point are in the may caches of the walks that lead there and of
those that lead on, which the fixpoint iteration runs against the edges. The code keeps their
number for each set, and the largest sum over all sets at any program point. After a preemption
at a program point, the rest of a run has at most this number of misses more than it has
without the preemption.
-/

namespace Llvmta

open Checked Lru

namespace CacheRelatedPreemptionDelay

variable (T : CacheTraits) (M : Multicore) (G : Graph)
  (P : EdgeWeightProvider (List AbstractAddress))

/-- The may analysis of the program, along the edges or against them. -/
def mayAnalysis (backwards : Bool) : GraphIterator (MayCache T) Unit where
  domain := LatticeCache.domain (LruMinAgeAbstractCache.keepsStates T M) T
  simpleGraph := G
  provider := P
  addInfo := none
  backwards := backwards

/-- The program points with a state, in their order. -/
def programPoints {χ : Type} (states : ℕ → Option χ) : List ℕ :=
  (0 :: G.getVertices.filter (· ≠ 0)).filter fun PP => (states PP).isSome

/-- `CacheStates->at(PP)` -/
def stateAt {χ : Type} (states : ℕ → Option χ) (PP : ℕ) : Except Fault χ :=
  match states PP with
  | some cache => .ok cache
  | none => .error .outOfBounds

def usefulAt (CacheStatesForwards CacheStatesBackwards : ℕ → Option (MayCache T)) (PP : ℕ) :
    Except Fault (ℕ × List ImplicitSet) := do
  let E1 ← stateAt CacheStatesForwards PP
  let E2 ← stateAt CacheStatesBackwards PP
  let temp ← computeCommonElements T E1.toCache.cacheSets E2.toCache.cacheSets
  .ok (PP, temp)

/-- The useful blocks of each program point and each set. -/
def computeUCBsPerPP (fuel : ℕ) : Except Fault (List (ℕ × List ImplicitSet)) := do
  let CacheStatesForwards ← (mayAnalysis T M G P false).runFixpointAnalysis fuel
  let CacheStatesBackwards ← (mayAnalysis T M G P true).runFixpointAnalysis fuel
  (programPoints G CacheStatesForwards).mapM (usefulAt T CacheStatesForwards CacheStatesBackwards)

/-- The body of the loop over the sets, with `MaxUCBsForSet` and `ssum`. -/
def countUCBs (Sets : List ImplicitSet) (res : List ℕ × ℤ) (i : ℕ) :
    Except Fault (List ℕ × ℤ) := do
  let Set ← read Sets i
  let UCBsInSet := min (toUnsigned Set.size) T.associativity
  let Max ← read res.1 i
  let MaxUCBsForSet ← write res.1 i (max Max UCBsInSet)
  .ok (MaxUCBsForSet, Int.bmod (res.2 + UCBsInSet) (2 ^ 32))

/-- The body of the loop over the program points, with `MaxUCBsForSet` and `sum`. -/
def countUCBsAt (res : List ℕ × ℤ) (kv : ℕ × List ImplicitSet) : Except Fault (List ℕ × ℤ) := do
  let counted ← (List.range T.nSets).foldlM (countUCBs T kv.2) (res.1, 0)
  .ok (counted.1, if counted.2 < res.2 then res.2 else counted.2)

/-- The largest number of useful blocks of each set, and of all sets at one program point. -/
def computeUCBsPerSet (Info : List (ℕ × List ImplicitSet)) : Except Fault (List ℕ × ℤ) :=
  Info.foldlM (countUCBsAt T) (List.replicate T.nSets 0, 0)

/-! ## The counted blocks -/

section Counted

variable {T} {Info : List (ℕ × List ImplicitSet)} {Sets : List ImplicitSet} {i : ℕ}

/-- The number of useful blocks that is counted for the set `i`. -/
def ucbCount (T : CacheTraits) (Sets : List ImplicitSet) (i : ℕ) : ℕ :=
  min (toUnsigned (Sets[i]?.getD ⟨[], false⟩).size) T.associativity

theorem sum_ucbCount_le (T : CacheTraits) (Sets : List ImplicitSet) (n : ℕ) :
    ∑ i ∈ Finset.range n, ucbCount T Sets i ≤ n * T.associativity := by
  have hle := Finset.sum_le_card_nsmul (Finset.range n) (ucbCount T Sets) T.associativity
    fun i _ => min_le_right _ _
  simpa using hle

/-- A conversion to `int` keeps numbers below `2 ^ 31`. -/
theorem bmod_of_lt {n : ℕ} (h : n < 2 ^ 31) : Int.bmod n (2 ^ 32) = n := by
  rw [Int.bmod_eq_of_le] <;> omega

/-- The loop over the sets of one program point. -/
theorem foldlM_countUCBs (hsmall : T.nSets * T.associativity < 2 ^ 31)
    (hSets : Sets.length = T.nSets) {Max : List ℕ} (hMax : Max.length = T.nSets) {n : ℕ}
    (hn : n ≤ T.nSets) :
    ∃ Max', (List.range n).foldlM (countUCBs T Sets) (Max, 0) =
        .ok (Max', ((∑ i ∈ Finset.range n, ucbCount T Sets i : ℕ) : ℤ)) ∧
      Max'.length = T.nSets ∧
      ∀ i m, Max[i]? = some m → ∃ m', Max'[i]? = some m' ∧ m ≤ m' ∧
        (i < n → ucbCount T Sets i ≤ m') := by
  induction n with
  | zero => exact ⟨Max, rfl, hMax, fun i m hm => ⟨m, hm, le_rfl, fun hi => absurd hi (by omega)⟩⟩
  | succ n ih =>
    obtain ⟨Max', hok, hlength, hmax⟩ := ih (by omega)
    have hset : n < Sets.length := by omega
    have hlt : n < Max'.length := by omega
    have hcount : min (toUnsigned (Sets[n]).size) T.associativity = ucbCount T Sets n := by
      simp [ucbCount, List.getElem?_eq_getElem hset]
    have hsum := (sum_ucbCount_le T Sets (n + 1)).trans
      (Nat.mul_le_mul_right T.associativity hn)
    rw [List.range_succ, List.foldlM_append, hok, ok_bind, List.foldlM_cons, countUCBs,
      read_of_lt hset, ok_bind, read_of_lt hlt, ok_bind, write_of_lt hlt, ok_bind, ok_bind,
      List.foldlM_nil, hcount, ← Nat.cast_add, ← Finset.sum_range_succ, bmod_of_lt (by omega)]
    refine ⟨_, rfl, by rw [List.length_set, hlength], fun i m hm => ?_⟩
    obtain ⟨m', hm', hle, hcovered⟩ := hmax i m hm
    by_cases hi : n = i
    · subst hi
      obtain rfl := Option.some_inj.mp ((List.getElem?_eq_getElem hlt).symm.trans hm')
      refine ⟨_, List.getElem?_set_self hlt, hle.trans (le_max_left _ _), fun _ => ?_⟩
      exact le_max_right _ _
    · refine ⟨m', (List.getElem?_set_ne hi).trans hm', hle, fun hlt => hcovered ?_⟩
      omega

/-- The results bound the blocks of a program point. -/
structure Counts (T : CacheTraits) (res : List ℕ × ℤ) (Sets : List ImplicitSet) : Prop where
  perSet : ∀ i < T.nSets, ∃ m, res.1[i]? = some m ∧ ucbCount T Sets i ≤ m
  total : ((∑ i ∈ Finset.range T.nSets, ucbCount T Sets i : ℕ) : ℤ) ≤ res.2

/-- Later program points raise the results. -/
theorem Counts.mono {res res' : List ℕ × ℤ} (h : Counts T res Sets)
    (hperSet : ∀ (i : ℕ) m, res.1[i]? = some m → ∃ m', res'.1[i]? = some m' ∧ m ≤ m')
    (htotal : res.2 ≤ res'.2) : Counts T res' Sets := by
  constructor
  · intro i hi
    obtain ⟨m, hm, hle⟩ := h.perSet i hi
    obtain ⟨m', hm', hle'⟩ := hperSet i m hm
    exact ⟨m', hm', hle.trans hle'⟩
  · exact h.total.trans htotal

theorem foldlM_countUCBsAt (hsmall : T.nSets * T.associativity < 2 ^ 31)
    (hInfo : ∀ kv ∈ Info, kv.2.length = T.nSets) {res : List ℕ × ℤ}
    (hres : res.1.length = T.nSets) :
    ∃ res', Info.foldlM (countUCBsAt T) res = .ok res' ∧ res'.1.length = T.nSets ∧
      (∀ (i : ℕ) m, res.1[i]? = some m → ∃ m', res'.1[i]? = some m' ∧ m ≤ m') ∧
      res.2 ≤ res'.2 ∧ ∀ kv ∈ Info, Counts T res' kv.2 := by
  induction Info generalizing res with
  | nil => exact ⟨res, rfl, hres, fun i m hm => ⟨m, hm, le_rfl⟩, le_rfl, by simp⟩
  | cons kv Info ih =>
    obtain ⟨hkv, hInfo⟩ := List.forall_mem_cons.mp hInfo
    obtain ⟨Max, hok, hlength, hmax⟩ := foldlM_countUCBs hsmall hkv hres le_rfl
    generalize hssum : ((∑ i ∈ Finset.range T.nSets, ucbCount T kv.2 i : ℕ) : ℤ) = ssum at hok
    have hvisit : countUCBsAt T res kv = .ok (Max, if ssum < res.2 then res.2 else ssum) := by
      rw [countUCBsAt, hok, ok_bind]
    have hsum : res.2 ≤ (if ssum < res.2 then res.2 else ssum) ∧
        ssum ≤ if ssum < res.2 then res.2 else ssum := by
      split_ifs <;> omega
    obtain ⟨res', hok', hlength', hmono, htotal, hcounts⟩ :=
      @ih hInfo (Max, if ssum < res.2 then res.2 else ssum) hlength
    rw [List.foldlM_cons, hvisit, ok_bind]
    refine ⟨res', hok', hlength', fun i m hm => ?_, hsum.1.trans htotal, fun kv' hkv' => ?_⟩
    · obtain ⟨m₁, hm₁, hle₁, _⟩ := hmax i m hm
      obtain ⟨m', hm', hle'⟩ := hmono i m₁ hm₁
      exact ⟨m', hm', hle₁.trans hle'⟩
    · rcases List.mem_cons.mp hkv' with rfl | hkv'
      · have hfirst : Counts T (Max, if ssum < res.2 then res.2 else ssum) kv'.2 := by
          constructor
          · intro i hi
            have hread := List.getElem?_eq_getElem (l := res.1) (i := i) (by omega)
            obtain ⟨m, hm, _, hle⟩ := hmax i _ hread
            exact ⟨m, hm, hle hi⟩
          · rw [hssum]
            exact hsum.2
        exact hfirst.mono hmono htotal
      · exact hcounts kv' hkv'

/-- The results of the code are bounds for each program point. -/
theorem computeUCBsPerSet_spec (hsmall : T.nSets * T.associativity < 2 ^ 31)
    (hInfo : ∀ kv ∈ Info, kv.2.length = T.nSets) :
    ∃ MaxUCBsForSet sum, computeUCBsPerSet T Info = .ok (MaxUCBsForSet, sum) ∧
      MaxUCBsForSet.length = T.nSets ∧ ∀ kv ∈ Info, Counts T (MaxUCBsForSet, sum) kv.2 := by
  have hzeros : (List.replicate T.nSets 0, (0 : ℤ)).1.length = T.nSets := List.length_replicate
  obtain ⟨res, hok, hlength, _, _, hcounts⟩ := foldlM_countUCBsAt hsmall hInfo hzeros
  exact ⟨res.1, res.2, hok, hlength, hcounts⟩

/-- The bounds of the sets add up to a bound for all of them. -/
theorem Counts.sum_le {MaxUCBsForSet : List ℕ} {sum : ℤ}
    (h : Counts T (MaxUCBsForSet, sum) Sets) (hlength : MaxUCBsForSet.length = T.nSets) :
    ∑ i ∈ Finset.range T.nSets, ucbCount T Sets i ≤ MaxUCBsForSet.sum := by
  rw [← hlength, Finset.sum_range, ← Fin.sum_univ_getElem]
  apply Finset.sum_le_sum
  intro i _
  obtain ⟨m, hm, hle⟩ := h.perSet i (by omega)
  obtain rfl := Option.some_inj.mp ((List.getElem?_eq_getElem i.isLt).symm.trans hm)
  exact hle

end Counted

/-! ## The useful blocks of a run -/

section Useful

variable {T} {s : ImplicitSet} {Set1 Set2 : LruMinAgeAbstractCache}

theorem mapM_forall₂ {α β ε : Type} {f : α → Except ε β} {l : List α} {l' : List β}
    (h : l.mapM f = .ok l') : List.Forall₂ (fun a b => f a = .ok b) l l' := by
  induction l generalizing l' with
  | nil =>
    cases h
    exact .nil
  | cons a l ih =>
    rw [List.mapM_cons] at h
    obtain ⟨b, hb, h⟩ := bind_eq_ok.mp h
    obtain ⟨bs, hbs, h⟩ := bind_eq_ok.mp h
    cases h
    exact .cons hb (ih hbs)

theorem mem_of_forall₂ {α β : Type} {R : α → β → Prop} {l : List α} {l' : List β}
    (h : List.Forall₂ R l l') :
    (∀ a ∈ l, ∃ b ∈ l', R a b) ∧ ∀ b ∈ l', ∃ a ∈ l, R a b := by
  induction h with
  | nil => simp
  | cons hab _ ih =>
    simp only [List.forall_mem_cons, List.exists_mem_cons_iff]
    exact ⟨⟨.inl hab, fun a ha => .inr (ih.1 a ha)⟩, .inl hab, fun b hb => .inr (ih.2 b hb)⟩

theorem elements_getTagsWithMaxMinAge (hS : LruMinAgeAbstractCache.OfAddresses T Set1) (n : ℤ) :
    (Set1.getTagsWithMaxMinAge n).elements.Nodup ∧
      ∀ t ∈ (Set1.getTagsWithMaxMinAge n).elements, t ≤ getTag T (2 ^ 32 - 1) := by
  unfold LruMinAgeAbstractCache.getTagsWithMaxMinAge
  split_ifs
  · simp
  · have hsub : List.Sublist (Set1.explicitTags.takeWhile fun e => (e.age : ℤ) ≤ n)
        Set1.explicitTags := List.takeWhile_sublist _
    constructor
    · exact hS.wellFormed.distinct.sublist hsub
    · intro t ht
      obtain ⟨e, he, rfl⟩ := List.mem_map.mp ht
      exact hS.tag_le e (hsub.subset he)

theorem mem_elements_intersect {s₁ s₂ : ImplicitSet} {t : ℕ}
    (h : t ∈ (ImplicitSet.intersect s₁ s₂).elements) : t ∈ s₁.elements ∨ t ∈ s₂.elements := by
  unfold ImplicitSet.intersect at h
  split_ifs at h <;> simp at h <;> tauto

/-- The common elements of two sets are stored as tags of addresses. -/
theorem length_commonElements_le (h₁ : LruMinAgeAbstractCache.OfAddresses T Set1)
    (h₂ : LruMinAgeAbstractCache.OfAddresses T Set2) :
    (commonElements T Set1 Set2).elements.length ≤ getTag T (2 ^ 32 - 1) + 1 := by
  obtain ⟨hnodup₁, hle₁⟩ := elements_getTagsWithMaxMinAge h₁ (T.associativity - 1)
  obtain ⟨hnodup₂, hle₂⟩ := elements_getTagsWithMaxMinAge h₂ (T.associativity - 1)
  have hnodup : (commonElements T Set1 Set2).elements.Nodup :=
    ImplicitSet.nodup_intersect hnodup₁ hnodup₂
  have hsub : (commonElements T Set1 Set2).elements.toFinset ⊆
      Finset.range (getTag T (2 ^ 32 - 1) + 1) := by
    intro t ht
    have hle := (mem_elements_intersect (List.mem_toFinset.mp ht)).elim (hle₁ t) (hle₂ t)
    exact Finset.mem_range.mpr (Nat.lt_succ_of_le hle)
  have hcard := Finset.card_le_card hsub
  rwa [List.toFinset_card_of_nodup hnodup, Finset.card_range] at hcard

/-- The counted number of a set bounds the members, up to the ways. A negated set has a size
that is greater than the number of ways, also as `unsigned`. -/
theorem card_le_of_members (hassoc : T.associativity < 2 ^ 31)
    (hlength : s.elements.length ≤ 2 ^ 31) {F : Finset ℕ} (hF : ∀ t ∈ F, t ∈ s)
    (hcard : F.card ≤ T.associativity) : F.card ≤ min (toUnsigned s.size) T.associativity := by
  apply le_min _ hcard
  unfold ImplicitSet.size ImplicitSet.isNegated toUnsigned
  cases huniverse : s.isUniverse with
  | true =>
    simp only [if_true]
    omega
  | false =>
    have hsub : F ⊆ s.elements.toFinset := fun t ht =>
      List.mem_toFinset.mpr ((ImplicitSet.mem_of_positive huniverse).mp (hF t ht))
    have hle := (Finset.card_le_card hsub).trans (List.toFinset_card_le s.elements)
    simp only [Bool.false_eq_true, if_false]
    rw [Nat.mod_eq_of_lt (by omega)]
    exact hle

/-- A block that is in both concrete sets is a common element. -/
theorem mem_commonElements (h₁ : LruMinAgeAbstractCache.WellFormed T Set1)
    (h₂ : LruMinAgeAbstractCache.WellFormed T Set2) {c d : CacheSet ℕ T.associativity}
    (hc : LruMinAgeAbstractCache.Bounds Set1 c) (hd : LruMinAgeAbstractCache.Bounds Set2 d) {t : ℕ}
    (htc : t ∈ c) (htd : t ∈ d) : t ∈ commonElements T Set1 Set2 :=
  ImplicitSet.mem_intersect.mpr
    ⟨hc.mem_getTagsWithMaxMinAge h₁ htc, hd.mem_getTagsWithMaxMinAge h₂ htd⟩

/-- The accesses of concrete addresses are steps of the caches. -/
theorem steps_of_accesses {accesses : List AbstractAddress} {addresses : List ℕ}
    (h : Accesses accesses addresses) (k : ℕ → CacheSet ℕ T.associativity) :
    Steps (AddressAccess T) accesses k
      (addresses.foldl (cacheAccess (getindex T) (getTag T)) k) := by
  induction h generalizing k with
  | nil => rfl
  | cons ha _ ih => exact ⟨_, ⟨_, ha, rfl⟩, ih _⟩

theorem Accesses.reverse {accesses : List AbstractAddress} {addresses : List ℕ}
    (h : Accesses accesses addresses) : Accesses accesses.reverse addresses.reverse :=
  List.forall₂_reverse_iff.mpr h

end Useful

section Run

variable {T M G P} (hT : T.Geometry) (hsmall : T.nSets * T.associativity < 2 ^ 31)
  (hexact : ∀ addr ∈ edgeAccesses G P, ExactAccess T addr)

include hT hexact

/-- The states of the may analysis stand for concrete caches. -/
theorem concretizes_mayAnalysis (backwards : Bool) :
    (mayAnalysis T M G P backwards).Concretizes (AddressAccess T) MayCache.describes where
  mono _ _ h := MayCache.describes_mono h
  update u n hn addr haddr c k k' hk haccess := by
    have hmem : addr ∈ edgeAccesses G P := by
      cases backwards with
      | false => exact List.mem_flatMap.mpr ⟨(u, n), Graph.mem_edges.mpr hn, haddr⟩
      | true =>
        exact List.mem_flatMap.mpr
          ⟨(n, u), Graph.mem_edges.mpr (Graph.mem_getPredecessors.mp hn), List.mem_reverse.mp haddr⟩
    exact MayCache.describes_update hT (hexact addr hmem) hk haccess

end Run

/-- The concrete cache after accesses to addresses. It is empty at first. -/
def cacheAfter (T : CacheTraits) (addresses : List ℕ) : ℕ → CacheSet ℕ T.associativity :=
  addresses.foldl (cacheAccess (getindex T) (getTag T)) fun _ => CacheSet.empty

/-- A run of the program from vertex 0 back to it, and a program point that it comes through. -/
structure RunThrough (G : Graph) (PP : ℕ) (before later : List GraphEdge) : Prop where
  walk_before : G.Walk 0 before PP
  walk_later : G.Walk PP later 0
  before_inner : ∀ edge ∈ before, edge.2 ≠ 0
  later_inner : ∀ edge ∈ later, edge.1 ≠ 0

/-- A program point of a run has states in both directions. -/
theorem mem_programPoints {χ : Type} {states : ℕ → Option χ} {PP : ℕ} {before later : List GraphEdge}
    (h : RunThrough G PP before later) (hstate : (states PP).isSome) :
    PP ∈ programPoints G states := by
  refine List.mem_filter.mpr ⟨?_, hstate⟩
  by_cases hzero : PP = 0
  · rw [hzero]
    exact List.mem_cons_self
  · apply List.mem_cons_of_mem
    refine List.mem_filter.mpr ⟨G.mem_getVertices.mpr ?_, by simpa using hzero⟩
    rcases List.eq_nil_or_concat before with rfl | ⟨path, edge, rfl⟩
    · exact absurd (Eq.symm h.walk_before) hzero
    · have hwalk := h.walk_before
      rw [List.concat_eq_append, Graph.walk_concat] at hwalk
      obtain ⟨_, hedge, rfl⟩ := hwalk
      exact (G.mem_vertices _ _ hedge).2

theorem linesOf_reverse {T : CacheTraits} (i : ℕ) (as : List ℕ) :
    linesOf (getindex T) (getTag T) i as.reverse = (linesOf (getindex T) (getTag T) i as).reverse := by
  rw [linesOf, List.filter_reverse, List.map_reverse, linesOf]

/-- The useful blocks of a set, in a run through two may caches. -/
theorem card_useful_le {T : CacheTraits} (hT : T.Geometry) (hassoc : T.associativity < 2 ^ 31)
    {E1 E2 : MayCache T} {as₁ as₂ : List ℕ}
    (h₁ : cacheAfter T as₁ ∈ E1.describes) (h₂ : cacheAfter T as₂.reverse ∈ E2.describes)
    (i : Fin T.nSets) :
    ((cacheAfter T as₁ i).useful (linesOf (getindex T) (getTag T) i as₂)).card ≤
        min (toUnsigned (commonElements T (E1 i).1 (E2 i).1).size) T.associativity := by
  have hword : 1 < T.lineSize * T.nSets := by
    have := hT.word_le
    rw [Nat.mul_comm] at this
    omega
  have hlast : 2 ^ 32 - 1 < 2 ^ 32 := by decide
  have htag := LruMinAgeAbstractCache.getTag_lt hword hlast
  have hlength := length_commonElements_le (E1 i).2 (E2 i).2
  apply card_le_of_members hassoc (by omega)
  · intro t ht
    have hlater := CacheSet.mem_run_of_mem_useful ht CacheSet.empty
    rw [CacheSet.run_eq_after, ← linesOf_reverse,
      ← foldl_cacheAccess (getindex T) (getTag T) fun _ => CacheSet.empty] at hlater
    exact mem_commonElements (E1 i).2.wellFormed (E2 i).2.wellFormed (h₁ i) (h₂ i)
      (CacheSet.mem_of_mem_useful ht) hlater
  · -- the useful blocks are held at the preemption
    have hsub : (cacheAfter T as₁ i).useful (linesOf (getindex T) (getTag T) i as₂) ⊆
        (cacheAfter T as₁ i).lines.toFinset :=
      fun t ht => List.mem_toFinset.mpr (CacheSet.mem_of_mem_useful ht)
    exact ((Finset.card_le_card hsub).trans (List.toFinset_card_le _)).trans
      (cacheAfter T as₁ i).length_le

section Cost

variable {T M G P} (hT : T.Geometry) (hsmall : T.nSets * T.associativity < 2 ^ 31)
  (hexact : ∀ addr ∈ edgeAccesses G P, ExactAccess T addr)

include hT hsmall hexact

/-- The useful blocks are counted at each program point of a run. -/
theorem exists_ucbs {fuel : ℕ} {Info : List (ℕ × List ImplicitSet)}
    (hInfo : computeUCBsPerPP T M G P fuel = .ok Info) {PP : ℕ} {before later : List GraphEdge}
    (hrun : RunThrough G PP before later) {as₁ as₂ : List ℕ}
    (h₁ : Accesses (before.flatMap P.addresses) as₁)
    (h₂ : Accesses (later.flatMap P.addresses) as₂) :
    ∃ Sets, (PP, Sets) ∈ Info ∧ ∀ i < T.nSets,
      ((cacheAfter T as₁ i).useful (linesOf (getindex T) (getTag T) i as₂)).card ≤
        ucbCount T Sets i := by
  obtain ⟨F, hF, hInfo⟩ := bind_eq_ok.mp hInfo
  obtain ⟨B, hB, hInfo⟩ := bind_eq_ok.mp hInfo
  obtain ⟨E1, hE1, hk₁⟩ := (concretizes_mayAnalysis (M := M) hT hexact false).of_walk rfl hF
    hrun.walk_before hrun.before_inner MayCache.describes_new (steps_of_accesses h₁ _)
  have hback := h₂.reverse
  obtain ⟨E2, hE2, hk₂⟩ := (concretizes_mayAnalysis (M := M) hT hexact true).of_walk_backwards rfl
    hB hrun.walk_later hrun.later_inner MayCache.describes_new (steps_of_accesses hback _)
  have hreached : (F PP).isSome := by
    rw [hE1]
    rfl
  have hPP := mem_programPoints G hrun hreached
  obtain ⟨kv, hkv, huseful⟩ := (mem_of_forall₂ (mapM_forall₂ hInfo)).1 PP hPP
  have hstate₁ : stateAt F PP = .ok E1 := by rw [stateAt, hE1]
  have hstate₂ : stateAt B PP = .ok E2 := by rw [stateAt, hE2]
  obtain ⟨temp, hcommon, hlength, hspec⟩ := computeCommonElements_spec (T := T)
    (E1.keptStates_toCache).length (E2.keptStates_toCache).length
  rw [usefulAt, hstate₁, ok_bind, hstate₂, ok_bind, hcommon, ok_bind] at huseful
  cases huseful
  refine ⟨temp, hkv, fun i hi => ?_⟩
  obtain ⟨Set1, Set2, hset₁, hset₂, heq⟩ := hspec i _ (List.getElem?_eq_getElem (by omega))
  rw [E1.getElem?_toCache ⟨i, hi⟩, Option.some_inj] at hset₁
  rw [E2.getElem?_toCache ⟨i, hi⟩, Option.some_inj] at hset₂
  have hassoc : T.associativity < 2 ^ 31 :=
    (Nat.le_mul_of_pos_left T.associativity hT.nSets_pos).trans_lt hsmall
  have hcard := card_useful_le hT hassoc hk₁ hk₂ ⟨i, hi⟩
  rw [hset₁, hset₂, ← heq] at hcard
  rw [ucbCount, List.getElem?_eq_getElem (by omega)]
  exact hcard

end Cost

/-- A line that is accessed on the first edge and again on the second one. -/
def reusedBlock : EdgeWeightProvider (List AbstractAddress) where
  edge2weight edge :=
    if edge = (0, 1) then some [.ofAddress 24 (by decide)]
    else if edge = (1, 2) then some [.ofAddress 24 (by decide), .ofAddress 88 (by decide)]
    else none

end CacheRelatedPreemptionDelay

end Llvmta
