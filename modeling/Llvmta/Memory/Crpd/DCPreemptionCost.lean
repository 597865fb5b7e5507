import Llvmta.Memory.Crpd.DCUsefulCacheBlocks

/-!
# What a preemption costs beyond the guaranteed hits

A timing analysis that counts a miss for each access that is not guaranteed to hit only has to
add the guaranteed hits that a preemption turns into misses. The first access to the block of
such a hit is guaranteed, so the block has an entry in the must caches all the way back to the
program point of the preemption, and is collected there.
-/

namespace Llvmta

open Checked Lru

namespace CacheRelatedPreemptionDelay

variable (T : CacheTraits) (M : Multicore) (G : Graph)
  (P : EdgeWeightProvider (List AbstractAddress))

/-- The backward analysis, with the must cache of each vertex. -/
def dcAnalysis (ages : ℕ → Option (MustCache T)) :
    GraphIterator (DCCache T) (Option (MustCache T)) where
  domain := DCCache.domain T
  simpleGraph := G
  provider := P
  addInfo := some ages
  backwards := true

/-- The blocks of a program point. The code also looks up the last access there, which is known
for the vertices that have a must cache. -/
def dcUsefulAt (ages : ℕ → Option (MustCache T)) (CacheStatesBackwards : ℕ → Option (DCCache T))
    (PP : ℕ) : Except Fault (ℕ × List ImplicitSet) := do
  let E1 ← stateAt CacheStatesBackwards PP
  let _ ← stateAt ages PP
  .ok (PP, E1.toCache.cacheSets.map DCUsefulCacheBlocks.getDCUsefulBlocks)

/-- The definitely cached useful blocks of each program point and each set. -/
def computeDCUCBsPerPP (fuel : ℕ) : Except Fault (List (ℕ × List ImplicitSet)) := do
  let CacheStatesForwards ← computeUnconstrainedAges T M G P false fuel
  let CacheStatesBackwards ← (dcAnalysis T G P CacheStatesForwards).runFixpointAnalysis fuel
  (programPoints G CacheStatesBackwards).mapM
    (dcUsefulAt T CacheStatesForwards CacheStatesBackwards)

/-- The loops are those of `computeUCBsPerSet`. -/
def computeDCUCBsPerSet (Info : List (ℕ × List ImplicitSet)) : Except Fault (List ℕ × ℤ) :=
  computeUCBsPerSet T Info

variable {T M G P} {ages : ℕ → Option (MustCache T)} {path : List GraphEdge} {u v t : ℕ}
  {i : Fin T.nSets}

/-- The line `t` of the set `i` is the one of the access. -/
def IsLine (i : Fin T.nSets) (t : ℕ) (addr : AbstractAddress) : Prop :=
  getindex T addr.interval.lower = i ∧ getTag T addr.interval.lower = t

/-- An edge is followed backwards with the must cache of its source. -/
theorem applyEdge_dcAnalysis {edge : GraphEdge} {c : MustCache T} (hc : ages edge.1 = some c)
    (d : DCCache T) : (dcAnalysis T G P ages).applyEdge edge.2 edge.1 d =
      (P.addresses edge).reverse.foldl (fun d addr => d.update addr (some c)) d := by
  have hinfo : (dcAnalysis T G P ages).addInfo.map (fun info => info edge.1) = some (some c) := by
    simp [dcAnalysis, hc]
  rw [GraphIterator.applyEdge, hinfo]
  rfl

theorem exists_mem_zip {α β : Type} {l : List α} {l' : List β} (h : l.length ≤ l'.length) {a : α}
    (ha : a ∈ l) : ∃ b, (a, b) ∈ l.zip l' := by
  rw [← List.map_fst_zip h] at ha
  obtain ⟨⟨a', b⟩, hab, rfl⟩ := List.mem_map.mp ha
  exact ⟨b, hab⟩

section Path

variable (hT : T.Geometry) (hA : 0 < T.associativity)

include hT hA

/-- A block that is guaranteed after other accesses was guaranteed before them. -/
theorem guaranteed_of_foldl {accesses : List AbstractAddress}
    (hline : ∀ addr ∈ accesses, SameLine T addr) (hother : ∀ addr ∈ accesses, ¬IsLine i t addr)
    {c : MustCache T} (h : DCCache.Guaranteed (accesses.foldl (MustCache.update M) c) i t) :
    DCCache.Guaranteed c i t := by
  induction accesses generalizing c with
  | nil => exact h
  | cons addr accesses ih =>
    obtain ⟨haddr, hline⟩ := List.forall_mem_cons.mp hline
    obtain ⟨hne, hother⟩ := List.forall_mem_cons.mp hother
    obtain ⟨e, he, rfl⟩ := ih hline hother h
    rcases (MustCache.entriesStep_update hT hA (.inl haddr) .load c i).tag_of_mem he with
      hfound | ⟨_, hindex, htag⟩
    · exact hfound
    · exact absurd ⟨hindex, htag.symm⟩ hne

/-- The first access to a line is marked on an edge: the line was guaranteed before the edge. -/
theorem exists_of_firstMarked {accesses : List AbstractAddress}
    (hline : ∀ addr ∈ accesses, SameLine T addr) {c : MustCache T} {as : List ℕ}
    (has : Accesses accesses as)
    (h : FirstMarked (getindex T) (getTag T) (i : ℕ) t (as.zip (c.hitsAlong M accesses))) :
    DCCache.Guaranteed c i t ∧ ∃ addr ∈ accesses, IsLine i t addr := by
  induction has generalizing c with
  | nil =>
    obtain ⟨before, a, later, heq, _⟩ := h
    simp at heq
  | @cons addr a accesses as ha _ ih =>
    obtain ⟨haddr, hline⟩ := List.forall_mem_cons.mp hline
    obtain ⟨htag, hindex⟩ := eq_of_sameLine hT haddr ha
    have hsame : IsLine i t addr ↔ getindex T a = i ∧ getTag T a = t := by
      rw [IsLine, htag, hindex]
    obtain ⟨before, b, later, heq, hb, hbefore⟩ := h
    rw [MustCache.hitsAlong, List.zip_cons_cons] at heq
    cases before with
    | nil =>
      obtain ⟨hfirst, _⟩ := List.cons.inj heq
      obtain ⟨rfl, hhit⟩ := Prod.mk.inj hfirst
      obtain ⟨e, he, hetag⟩ :=
        MustCache.exists_of_classify_hit hT (of_decide_eq_true hhit) ha i hb.1
      exact ⟨⟨e, he, hetag.trans hb.2⟩, addr, List.mem_cons_self, hsame.mpr hb⟩
    | cons access before =>
      obtain ⟨rfl, hrest⟩ := List.cons.inj heq
      obtain ⟨hne, hbefore⟩ := List.forall_mem_cons.mp hbefore
      have hne : ¬IsLine i t addr := fun h => hne (hsame.mp h)
      obtain ⟨hguaranteed, addr', haddr', hisLine⟩ :=
        ih hline ⟨before, b, later, hrest, hb, hbefore⟩
      have hback : DCCache.Guaranteed ([addr].foldl (MustCache.update M) c) i t := hguaranteed
      refine ⟨?_, addr', List.mem_cons_of_mem _ haddr', hisLine⟩
      exact guaranteed_of_foldl hT hA (by simpa using haddr) (by simpa using hne) hback

omit hA in
/-- Lines that are not accessed by the addresses are not those of the accesses. -/
theorem not_isLine {accesses : List AbstractAddress} (hline : ∀ addr ∈ accesses, SameLine T addr)
    {as : List ℕ} (has : Accesses accesses as)
    (h : ∀ a ∈ as, ¬(getindex T a = i ∧ getTag T a = t)) : ∀ addr ∈ accesses, ¬IsLine i t addr := by
  induction has with
  | nil => simp
  | @cons addr a accesses as ha _ ih =>
    obtain ⟨haddr, hline⟩ := List.forall_mem_cons.mp hline
    obtain ⟨hne, h⟩ := List.forall_mem_cons.mp h
    obtain ⟨htag, hindex⟩ := eq_of_sameLine hT haddr ha
    rw [htag, hindex] at hne
    exact List.forall_mem_cons.mpr ⟨hne, ih hline h⟩

variable (hline : ∀ addr ∈ edgeAccesses G P, SameLine T addr)

include hline

/-- A block whose first access on a path is guaranteed to hit has been collected. -/
theorem collected_walk (hages : (mustAnalysis T M G P false).HandsOn ages)
    (hstart : (ages 0).isSome) {states : ℕ → Option (DCCache T)}
    (hstates : (dcAnalysis T G P ages).HandsOn states) (hend : (states 0).isSome)
    (hwalk : G.Walk u path 0) (hinner : ∀ edge ∈ path, edge.1 ≠ 0) {c : MustCache T}
    (hc : ages u = some c) {as : List ℕ} (has : Accesses (path.flatMap P.addresses) as) :
    ∃ d, states u = some d ∧ ∀ t,
      FirstMarked (getindex T) (getTag T) (i : ℕ) t (as.zip (guaranteedHits M P ages path)) →
        DCCache.Guaranteed c i t ∧ t ∈ (d i).1.accessedTags := by
  induction path generalizing u c as with
  | nil =>
    obtain rfl : 0 = u := hwalk.symm
    obtain ⟨d, hd⟩ := Option.isSome_iff_exists.mp hend
    refine ⟨d, hd, fun t ht => ?_⟩
    obtain ⟨before, a, later, heq, _⟩ := ht
    simp [guaranteedHits] at heq
  | cons edge path ih =>
    obtain ⟨rfl, hedge, hrest⟩ := hwalk
    obtain ⟨hne, hinner⟩ := List.forall_mem_cons.mp hinner
    rw [List.flatMap_cons] at has
    obtain ⟨as₁, as₂, rfl, has₁, has₂⟩ := has.append_left
    have hline₁ : ∀ addr ∈ P.addresses edge, SameLine T addr := fun addr haddr =>
      hline addr (List.mem_flatMap.mpr ⟨edge, Graph.mem_edges.mpr hedge, haddr⟩)
    -- the must cache at the end of the edge; nothing is accessed behind vertex 0
    obtain ⟨c', hc', hle⟩ : ∃ c', ages edge.2 = some c' ∧
        (edge.2 ≠ 0 → (P.addresses edge).foldl (MustCache.update M) c ≤ c') := by
      by_cases hzero : edge.2 = 0
      · obtain ⟨c', hc'⟩ := Option.isSome_iff_exists.mp hstart
        exact ⟨c', by rw [hzero, hc'], fun h => absurd hzero h⟩
      · obtain ⟨c', hc', hle⟩ := hages _ c hc edge.2 hedge hzero
        exact ⟨c', hc', fun _ => hle⟩
    obtain ⟨d', hd', hcollected⟩ := ih hrest hinner hc' has₂
    obtain ⟨d, hd, hled⟩ := hstates _ d' hd' edge.1 (Graph.mem_getPredecessors.mpr hedge) hne
    rw [applyEdge_dcAnalysis hc] at hled
    refine ⟨d, hd, fun t ht => ?_⟩
    have hguaranteed : guaranteedHits M P ages (edge :: path) =
        c.hitsAlong M (P.addresses edge) ++ guaranteedHits M P ages path := by
      rw [guaranteedHits, List.flatMap_cons, hc, guaranteedHits]
    have hlength : as₁.length = (c.hitsAlong M (P.addresses edge)).length := by
      rw [has₁.length_eq, MustCache.length_hitsAlong]
    have hreversed : ∀ addr ∈ (P.addresses edge).reverse, SameLine T addr := fun addr haddr =>
      hline₁ addr (List.mem_reverse.mp haddr)
    rw [hguaranteed, List.zip_append hlength] at ht
    rcases ht.append with hfirst | ⟨hother, hlater⟩
    · obtain ⟨hc, addr, haddr, hisLine⟩ := exists_of_firstMarked hT hA hline₁ has₁ hfirst
      exact ⟨hc, hled i (DCCache.mem_foldl_update hT hreversed hc
        (.inr ⟨addr, List.mem_reverse.mpr haddr, hisLine⟩))⟩
    · obtain ⟨hguaranteed', hd'⟩ := hcollected t hlater
      have hzero : edge.2 ≠ 0 := by
        rintro hzero
        cases path with
        | nil =>
          obtain ⟨before, a, later, heq, _⟩ := hlater
          simp [guaranteedHits] at heq
        | cons next path => exact hinner next List.mem_cons_self (hrest.1.trans hzero)
      have hothers : ∀ addr ∈ P.addresses edge, ¬IsLine i t addr := by
        apply not_isLine hT hline₁ has₁
        intro a ha
        obtain ⟨marked, hmarked⟩ := exists_mem_zip hlength.le ha
        exact hother _ hmarked
      have hc := guaranteed_of_foldl hT hA hline₁ hothers (hguaranteed'.mono (hle hzero))
      exact ⟨hc, hled i (DCCache.mem_foldl_update hT hreversed hc (.inl hd'))⟩

end Path

/-- Every access is one of some address. -/
theorem exists_accesses (accesses : List AbstractAddress) : ∃ as, Accesses accesses as := by
  induction accesses with
  | nil => exact ⟨[], .nil⟩
  | cons addr accesses ih =>
    obtain ⟨as, has⟩ := ih
    exact ⟨addr.interval.lower :: as, .cons ⟨le_rfl, addr.interval.lower_le⟩ has⟩

/-- The collected blocks of a set are counted up to the ways. -/
theorem card_le_ucbCount (hT : T.Geometry) (hassoc : T.associativity < 2 ^ 31) (E : DCCache T)
    {F : Finset ℕ} (hF : F ⊆ (E i).1.accessedTags) (hcard : F.card ≤ T.associativity) :
    F.card ≤ ucbCount T (E.toCache.cacheSets.map DCUsefulCacheBlocks.getDCUsefulBlocks) i := by
  have hword : 1 < T.lineSize * T.nSets := by
    have := hT.word_le
    rw [Nat.mul_comm] at this
    omega
  have hlast : 2 ^ 32 - 1 < 2 ^ 32 := by decide
  have htag := LruMinAgeAbstractCache.getTag_lt hword hlast
  have hsub : (E i).1.accessedTags ⊆ Finset.range (getTag T (2 ^ 32 - 1) + 1) := fun t ht =>
    Finset.mem_range.mpr (Nat.lt_succ_of_le ((E i).2 t ht))
  have hlength : (E i).1.getDCUsefulBlocks.elements.length ≤ 2 ^ 31 := by
    have hle := Finset.card_le_card hsub
    rw [Finset.card_range] at hle
    rw [DCUsefulCacheBlocks.getDCUsefulBlocks, Finset.length_sort]
    omega
  rw [ucbCount, List.getElem?_map, E.getElem?_toCache i]
  exact card_le_of_members hassoc hlength
    (fun t ht => DCUsefulCacheBlocks.mem_getDCUsefulBlocks.mpr (hF ht)) hcard

/-- If the marked accesses hit without a preemption, those that miss after one are counted. -/
theorem cacheMarkedMisses_le_ucbCount (hT : T.Geometry)
    (hsmall : T.nSets * T.associativity < 2 ^ 31) {k : ℕ → CacheSet ℕ T.associativity}
    {π : List (ℕ × Bool)} (hhits : cacheMarkedMisses (getindex T) (getTag T) k π = 0)
    {E : DCCache T} (hcollected : ∀ (i : Fin T.nSets) t,
      FirstMarked (getindex T) (getTag T) (i : ℕ) t π → t ∈ (E i).1.accessedTags)
    (preempted : ℕ → CacheSet ℕ T.associativity) :
    cacheMarkedMisses (getindex T) (getTag T) preempted π ≤ ∑ i ∈ Finset.range T.nSets,
      ucbCount T (E.toCache.cacheSets.map DCUsefulCacheBlocks.getDCUsefulBlocks) i := by
  have hindex : ∀ a ∈ π, getindex T a.1 ∈ Finset.range T.nSets := fun a _ =>
    Finset.mem_range.mpr (Nat.mod_lt _ hT.nSets_pos)
  have hassoc : T.associativity < 2 ^ 31 :=
    (Nat.le_mul_of_pos_left T.associativity hT.nSets_pos).trans_lt hsmall
  rw [cacheMarkedMisses_eq_sum _ _ _ k hindex, Finset.sum_eq_zero_iff] at hhits
  rw [cacheMarkedMisses_eq_sum _ _ _ preempted hindex]
  apply Finset.sum_le_sum
  intro i hi
  generalize hlines : markedLines (getindex T) (getTag T) i π = lines at hhits ⊢
  have hset : (k i).markedMisses lines = 0 := hlines ▸ hhits i hi
  have hfirst := CacheSet.markedMisses_le_of_sameOn
    (CacheSet.sameOn_empty (k i) (preempted i)) hset
  apply hfirst.trans
  -- the blocks are held at the preemption, so they are not more than the ways
  have hheld : CacheSet.firstMarked ∅ lines ⊆ (k i).lines.toFinset := fun t ht =>
    List.mem_toFinset.mpr
      (CacheSet.mem_of_mem_useful (CacheSet.firstMarked_subset_firstHits hset ht))
  have hcard := ((Finset.card_le_card hheld).trans (List.toFinset_card_le _)).trans (k i).length_le
  refine card_le_ucbCount (i := ⟨i, Finset.mem_range.mp hi⟩) hT hassoc E (fun t ht => ?_) hcard
  exact hcollected _ t (firstMarked_of_mem _ _ (hlines ▸ ht))

section Cost

variable (hT : T.Geometry) (hA : 0 < T.associativity)
  (hsmall : T.nSets * T.associativity < 2 ^ 31)
  (hline : ∀ addr ∈ edgeAccesses G P, SameLine T addr)

include hT hA hline

/-- At each vertex of a run there is a must cache that stands for a concrete cache. -/
theorem exists_mustCache {fuel : ℕ}
    (hages : computeUnconstrainedAges T M G P false fuel = .ok ages) (hwalk : G.Walk 0 path v)
    (hinner : ∀ edge ∈ path, edge.2 ≠ 0) : ∃ c, ages v = some c ∧ c.describes.Nonempty := by
  have hconcretizes : (mustAnalysis T M G P false).Concretizes (AddressAccess T)
      MustCache.describes :=
    { mono := fun _ _ h => MustCache.describes_mono h
      update := fun u n hn addr haddr c k k' hk haccess => by
        have hmem : addr ∈ edgeAccesses G P :=
          List.mem_flatMap.mpr ⟨(u, n), Graph.mem_edges.mpr hn, haddr⟩
        exact MustCache.describes_update hT hA (.inl (hline addr hmem)) hk haccess }
  obtain ⟨as, has⟩ := exists_accesses (path.flatMap P.addresses)
  obtain ⟨c, hc, hk⟩ := hconcretizes.of_walk rfl hages hwalk hinner
    (MustCache.describes_new fun _ => CacheSet.empty) (steps_of_accesses has _)
  exact ⟨c, hc, _, hk⟩

include hsmall

/-- The collected blocks of a program point bound the guaranteed hits that a preemption there
turns into misses. -/
theorem exists_dcucbs {fuel : ℕ} {Info : List (ℕ × List ImplicitSet)}
    (hages : computeUnconstrainedAges T M G P false fuel = .ok ages)
    (hInfo : computeDCUCBsPerPP T M G P fuel = .ok Info) {PP : ℕ} {before later : List GraphEdge}
    (hrun : RunThrough G PP before later) {as : List ℕ}
    (has : Accesses (later.flatMap P.addresses) as) :
    ∃ Sets, (PP, Sets) ∈ Info ∧ Sets.length = T.nSets ∧
      ∀ preempted : ℕ → CacheSet ℕ T.associativity,
        cacheMarkedMisses (getindex T) (getTag T) preempted
            (as.zip (guaranteedHits M P ages later)) ≤
          ∑ i ∈ Finset.range T.nSets, ucbCount T Sets i := by
  obtain ⟨ages', hages', hInfo⟩ := bind_eq_ok.mp hInfo
  obtain rfl : ages = ages' := Except.ok.inj (hages.symm.trans hages')
  obtain ⟨states, hstates, hInfo⟩ := bind_eq_ok.mp hInfo
  obtain ⟨⟨c₀, hc₀, _⟩, hhandsOn⟩ := GraphIterator.handsOn_of_run hages
  obtain ⟨⟨d₀, hd₀, _⟩, hhandsOn'⟩ := GraphIterator.handsOn_of_run hstates
  obtain ⟨c, hc, k, hk⟩ := exists_mustCache hT hA hline hages hrun.walk_before hrun.before_inner
  have hexact : ∀ addr ∈ edgeAccesses G P, ExactAccess T addr := fun addr haddr =>
    .inl (hline addr haddr)
  have hhits := hits_walk hT hA hexact hhandsOn hrun.walk_later
    (fun edge hedge => hrun.later_inner edge (List.mem_of_mem_tail hedge)) hc hk has
  have hcollected (i : Fin T.nSets) := collected_walk (i := i) hT hA hline hhandsOn
    (Option.isSome_iff_exists.mpr ⟨c₀, hc₀⟩) hhandsOn' (Option.isSome_iff_exists.mpr ⟨d₀, hd₀⟩)
    hrun.walk_later hrun.later_inner hc has
  obtain ⟨E, hE, _⟩ := hcollected ⟨0, hT.nSets_pos⟩
  have hPP := mem_programPoints G hrun (Option.isSome_iff_exists.mpr ⟨E, hE⟩)
  obtain ⟨kv, hkv, huseful⟩ := (mem_of_forall₂ (mapM_forall₂ hInfo)).1 PP hPP
  have hstate : stateAt states PP = .ok E := by rw [stateAt, hE]
  have hage : stateAt ages PP = .ok c := by rw [stateAt, hc]
  rw [dcUsefulAt, hstate, ok_bind, hage, ok_bind] at huseful
  cases huseful
  refine ⟨_, hkv, by simp [LatticeCache.toCache], fun preempted => ?_⟩
  refine cacheMarkedMisses_le_ucbCount hT hsmall hhits (fun i t ht => ?_) preempted
  obtain ⟨E', hE', hmem⟩ := hcollected i
  obtain rfl : E = E' := Option.some_inj.mp (hE.symm.trans hE')
  exact (hmem t ht).2

end Cost

/-- A block that is accessed on the first edge and two times on the second one. -/
def reusedTwice : EdgeWeightProvider (List AbstractAddress) where
  edge2weight edge :=
    if edge = (0, 1) then some [.ofAddress 28 (by decide)]
    else if edge = (1, 2) then some [.ofAddress 28 (by decide), .ofAddress 28 (by decide)]
    else none

end CacheRelatedPreemptionDelay

end Llvmta
