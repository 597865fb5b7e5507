import Llvmta.AnalysisFramework.EdgeEffects
import Llvmta.Library.CheckedFold
import Llvmta.Library.LruPreemption
import Llvmta.Memory.ExactUpdates

/-!
# The blocks that a task evicts

When a task preempts another one, the blocks that it may load into a set age or evict those of
the other task. Their tags are collected over all edges of the program. More tags than there
are ways evict everything, as do accesses in several lines: the exact tags are given up then.
The number of tags of a set is how much a block of the other task ages at most.
-/

namespace Llvmta

open Checked AbstractCacheImpl

@[ext] structure EvictingCacheBlocks where
  top : Bool
  accessedTags : Finset ℕ
  deriving DecidableEq

namespace EvictingCacheBlocks

variable (T : CacheTraits)

/-- The constructor ignores `assumeAnEmptyCache`. -/
def new (_ : Bool) : EvictingCacheBlocks := ⟨false, ∅⟩

def reportOf (wantReport : Bool) : Option UpdateReport :=
  if wantReport then some .generic else none

def insertTag (s : EvictingCacheBlocks) (tag : ℕ) : EvictingCacheBlocks :=
  if s.top then s
  else if T.associativity < (insert tag s.accessedTags).card then ⟨true, ∅⟩
  else ⟨s.top, insert tag s.accessedTags⟩

def update (s : EvictingCacheBlocks) (addr : AbstractAddress) (wantReport : Bool) :
    Except Fault (EvictingCacheBlocks × Option UpdateReport) := do
  let tag ← getTagOf T addr
  .ok (s.insertTag T tag, reportOf wantReport)

def potentialUpdate (wantReport : Bool) : EvictingCacheBlocks × Option UpdateReport :=
  (⟨true, ∅⟩, reportOf wantReport)

def join (s y : EvictingCacheBlocks) : EvictingCacheBlocks :=
  ⟨s.top || y.top, s.accessedTags ∪ y.accessedTags⟩

def isTop (s : EvictingCacheBlocks) : Bool := s.top

def getAccessedTags (s : EvictingCacheBlocks) : Except Fault (Finset ℕ) := do
  assertThat (!s.isTop) "!isTop()"
  .ok s.accessedTags

/-- The evicting blocks as an analysis of a cache set. -/
def setAnalysis : CacheSetAnalysis EvictingCacheBlocks where
  new := new
  classify _ _ := .ok .clUnknown
  update s addr _ wantReport _ := s.update T addr wantReport
  potentialUpdate _ _ _ wantReport := .ok (potentialUpdate wantReport)
  join s y := .ok (s.join y)
  equals s y := s == y

end EvictingCacheBlocks

namespace CacheRelatedPreemptionDelay

variable (T : CacheTraits) (G : Graph) (P : EdgeWeightProvider (List AbstractAddress))

/-- An update for which no report is wanted. -/
def updateECB (ECB : AbstractCacheImpl EvictingCacheBlocks) (A : AbstractAddress)
    (load_store : AccessType) : Except Fault (AbstractCacheImpl EvictingCacheBlocks) := do
  let res ← AbstractCacheImpl.update T (EvictingCacheBlocks.setAnalysis T) ECB A load_store false
    .clUnknown
  .ok res.1

def countECBs (Sets : List EvictingCacheBlocks) (ECBS : List ℕ) (i : ℕ) :
    Except Fault (List ℕ) := do
  let S ← read Sets i
  if S.isTop then write ECBS i T.associativity
  else do
    let Blocks ← S.getAccessedTags
    write ECBS i (toUnsigned Blocks.card)

/-- The number of blocks of each set that the task may load. -/
def computeECBsPerSet : Except Fault (List ℕ) := do
  let ECB ← runSimpleAccumulatedEdgeEffectAnalysis G P (updateECB T)
    (AbstractCacheImpl.new T (EvictingCacheBlocks.setAnalysis T) false)
  (List.range T.nSets).foldlM (countECBs T ECB.cacheSets) (List.replicate T.nSets 0)

def computeECBs : Except Fault ℕ := do
  let ECBsSet ← computeECBsPerSet T G P
  .ok (ECBsSet.foldl (fun sum ECBs => toUnsigned (sum + ECBs)) 0)

/-! ## The collected tags -/

/-- An access in several lines reaches the set `i`. -/
def Imprecise (i : ℕ) (accesses : List AbstractAddress) : Prop :=
  ∃ addr ∈ accesses, ¬SameLine T addr ∧ ReachesSet T addr.interval i

/-- The tags of the accesses in one line of the set `i`. -/
def accessedBlocks (i : ℕ) (accesses : List AbstractAddress) : Finset ℕ :=
  ((accesses.filter fun addr => SameLine T addr ∧ getindex T addr.interval.lower = i).map
    fun addr => getTag T addr.interval.lower).toFinset

/-- The state of the set `i` after accesses. -/
structure Accumulated (i : ℕ) (accesses : List AbstractAddress) (s : EvictingCacheBlocks) :
    Prop where
  top : s.top = true ↔
    Imprecise T i accesses ∨ T.associativity < (accessedBlocks T i accesses).card
  tags : s.top = false → s.accessedTags = accessedBlocks T i accesses

variable {T G P} {i : ℕ} {accesses : List AbstractAddress} {addr : AbstractAddress}
  {s s' : EvictingCacheBlocks}

theorem imprecise_append : Imprecise T i (accesses ++ [addr]) ↔
    Imprecise T i accesses ∨ ¬SameLine T addr ∧ ReachesSet T addr.interval i := by
  simp only [Imprecise, List.mem_append, List.mem_singleton, or_and_right, exists_or,
    exists_eq_left]

theorem accessedBlocks_append : accessedBlocks T i (accesses ++ [addr]) =
    if SameLine T addr ∧ getindex T addr.interval.lower = i then
      insert (getTag T addr.interval.lower) (accessedBlocks T i accesses)
    else accessedBlocks T i accesses := by
  unfold accessedBlocks
  rw [List.filter_append, List.map_append, List.toFinset_append]
  split_ifs with h
  · simp [h]
  · simp [h]

theorem accumulated_nil (i : ℕ) (b : Bool) : Accumulated T i [] (.new b) := by
  constructor
  · simp [EvictingCacheBlocks.new, Imprecise, accessedBlocks]
  · exact fun _ => rfl

/-- An access to another set changes nothing. -/
theorem Accumulated.other (h : Accumulated T i accesses s)
    (hline : SameLine T addr → getindex T addr.interval.lower ≠ i)
    (hreach : ¬SameLine T addr → ¬ReachesSet T addr.interval i) :
    Accumulated T i (accesses ++ [addr]) s := by
  have hblocks : accessedBlocks T i (accesses ++ [addr]) = accessedBlocks T i accesses := by
    rw [accessedBlocks_append, if_neg fun hin => hline hin.1 hin.2]
  have himprecise : Imprecise T i (accesses ++ [addr]) ↔ Imprecise T i accesses := by
    rw [imprecise_append]
    tauto
  constructor
  · rw [himprecise, hblocks]
    exact h.top
  · rw [hblocks]
    exact h.tags

theorem Accumulated.insertTag (h : Accumulated T i accesses s) (hline : SameLine T addr)
    (hindex : getindex T addr.interval.lower = i) :
    Accumulated T i (accesses ++ [addr]) (s.insertTag T (getTag T addr.interval.lower)) := by
  have hblocks : accessedBlocks T i (accesses ++ [addr]) =
      insert (getTag T addr.interval.lower) (accessedBlocks T i accesses) := by
    rw [accessedBlocks_append, if_pos ⟨hline, hindex⟩]
  have himprecise : Imprecise T i (accesses ++ [addr]) ↔ Imprecise T i accesses := by
    rw [imprecise_append]
    simp [hline]
  have hcard := Finset.card_le_card
    (Finset.subset_insert (getTag T addr.interval.lower) (accessedBlocks T i accesses))
  unfold EvictingCacheBlocks.insertTag
  cases htop : s.top with
  | true =>
    have hcause := h.top.mp htop
    rw [if_pos rfl]
    constructor
    · rw [himprecise, hblocks]
      refine iff_of_true htop (hcause.imp_right fun hlt => ?_)
      exact hlt.trans_le hcard
    · simp [htop]
  | false =>
    have hnot : ¬Imprecise T i accesses := fun hi => by simp [h.top.mpr (.inl hi)] at htop
    rw [if_neg Bool.false_ne_true, h.tags htop, ← hblocks]
    split_ifs with hlt
    · exact ⟨iff_of_true rfl (.inr hlt), fun hfalse => by cases hfalse⟩
    · constructor
      · simp [himprecise, hnot, hlt]
      · exact fun _ => rfl

theorem accumulated_potentialUpdate (hline : ¬SameLine T addr)
    (hreach : ReachesSet T addr.interval i) : Accumulated T i (accesses ++ [addr]) ⟨true, ∅⟩ := by
  constructor
  · rw [imprecise_append]
    exact iff_of_true rfl (.inl (.inr ⟨hline, hreach⟩))
  · exact fun hfalse => by cases hfalse

section Sets

variable {load_store : AccessType} {assumption : Classification} (hT : T.Geometry)

include hT

theorem getTagOf_lower (addr : AbstractAddress) :
    getTagOf T (lineAddress T addr.interval.lower) = .ok (getTag T addr.interval.lower) :=
  getTagOf_lineAddress hT (addr.interval.lower_le.trans_lt addr.interval.upper_lt)

theorem exists_setStep (i : ℕ) (s : EvictingCacheBlocks) :
    ∃ s', SetStep T (EvictingCacheBlocks.setAnalysis T) addr load_store assumption i s s' := by
  unfold SetStep
  split_ifs
  · refine ⟨s.insertTag T (getTag T addr.interval.lower), none, ?_⟩
    simp [EvictingCacheBlocks.setAnalysis, EvictingCacheBlocks.update, getTagOf_lower hT,
      EvictingCacheBlocks.reportOf, ok_bind]
  · exact ⟨s, rfl⟩
  · by_cases hreach : ReachesSet T addr.interval i
    · exact ⟨⟨true, ∅⟩, fun _ => ⟨none, rfl⟩, fun hnot => absurd hreach hnot⟩
    · exact ⟨s, fun h => absurd h hreach, fun _ => rfl⟩

theorem Accumulated.step (h : Accumulated T i accesses s)
    (hs' : SetStep T (EvictingCacheBlocks.setAnalysis T) addr load_store assumption i s s') :
    Accumulated T i (accesses ++ [addr]) s' := by
  unfold SetStep at hs'
  split_ifs at hs' with hline hindex
  · obtain ⟨report, hs'⟩ := hs'
    simp only [EvictingCacheBlocks.setAnalysis, EvictingCacheBlocks.update, getTagOf_lower hT,
      ok_bind, Except.ok.injEq, Prod.mk.injEq] at hs'
    rw [← hs'.1]
    exact h.insertTag hline hindex
  · rw [hs']
    exact h.other (fun _ => hindex) fun hnot => absurd hline hnot
  · obtain ⟨hin, hout⟩ := hs'
    by_cases hreach : ReachesSet T addr.interval i
    · obtain ⟨report, hs'⟩ := hin hreach
      cases hs'
      exact accumulated_potentialUpdate hline hreach
    · rw [hout hreach]
      exact h.other (fun hsame => absurd hsame hline) fun _ => hreach

/-- The cache after accesses. -/
def AccumulatedSets (T : CacheTraits) (accesses : List AbstractAddress)
    (c : AbstractCacheImpl EvictingCacheBlocks) : Prop :=
  c.cacheSets.length = T.nSets ∧
    ∀ (i : ℕ) (s : EvictingCacheBlocks), c.cacheSets[i]? = some s → Accumulated T i accesses s

theorem AccumulatedSets.update {c : AbstractCacheImpl EvictingCacheBlocks}
    (h : AccumulatedSets T accesses c) (hexact : ExactAccess T addr) :
    ∃ c', updateECB T c addr load_store = .ok c' ∧ AccumulatedSets T (accesses ++ [addr]) c' := by
  have hsteps : ∀ i s, c.cacheSets[i]? = some s →
      ∃ s', SetStep T (EvictingCacheBlocks.setAnalysis T) addr load_store .clUnknown i s s' :=
    fun i s _ => exists_setStep hT i s
  obtain ⟨c', report, hc', hlength, hsets⟩ := update_exact hT hexact h.1 hsteps
  refine ⟨c', ?_, hlength, fun i s' hs' => ?_⟩
  · rw [updateECB, hc', ok_bind]
  · have hi : i < c.cacheSets.length := by
      rw [h.1, ← hlength]
      exact (List.getElem?_eq_some_iff.mp hs').choose
    obtain ⟨t, ht, hstep⟩ := hsets i _ (List.getElem?_eq_getElem hi)
    obtain rfl : t = s' := Option.some_inj.mp (ht.symm.trans hs')
    exact (h.2 i _ (List.getElem?_eq_getElem hi)).step hT hstep

theorem AccumulatedSets.foldlM {c : AbstractCacheImpl EvictingCacheBlocks}
    (h : AccumulatedSets T accesses c) {more : List AbstractAddress}
    (hexact : ∀ addr ∈ more, ExactAccess T addr) :
    ∃ c', more.foldlM (fun c A => updateECB T c A .load) c = .ok c' ∧
      AccumulatedSets T (accesses ++ more) c' := by
  induction more generalizing accesses c with
  | nil => exact ⟨c, rfl, by rwa [List.append_nil]⟩
  | cons addr more ih =>
    obtain ⟨haddr, hmore⟩ := List.forall_mem_cons.mp hexact
    obtain ⟨c₁, hc₁, h₁⟩ : ∃ c', updateECB T c addr .load = .ok c' ∧
        AccumulatedSets T (accesses ++ [addr]) c' := h.update hT haddr
    obtain ⟨c', hc', h'⟩ := ih h₁ hmore
    rw [List.foldlM_cons, hc₁, ok_bind]
    exact ⟨c', hc', by simpa using h'⟩

end Sets

/-- The number of blocks that the analysis is to find for a set. -/
structure EvictingCount (T : CacheTraits) (accesses : List AbstractAddress) (i n : ℕ) : Prop where
  imprecise : Imprecise T i accesses → n = T.associativity
  precise : ¬Imprecise T i accesses → n = min T.associativity (accessedBlocks T i accesses).card

theorem Accumulated.evictingCount (h : Accumulated T i accesses s) : EvictingCount T accesses i
    (if s.isTop then T.associativity else s.accessedTags.card) := by
  unfold EvictingCacheBlocks.isTop
  cases htop : s.top with
  | true =>
    rw [if_pos rfl]
    refine ⟨fun _ => rfl, fun hnot => ?_⟩
    have hlt := (h.top.mp htop).resolve_left hnot
    exact (min_eq_left hlt.le).symm
  | false =>
    have hcause := h.top.not.mp (by simp [htop])
    rw [not_or, not_lt] at hcause
    rw [if_neg Bool.false_ne_true, h.tags htop]
    exact ⟨fun hi => absurd hi hcause.1, fun _ => (min_eq_right hcause.2).symm⟩

theorem countECBs_spec (hassoc : T.associativity < 2 ^ 32)
    {c : AbstractCacheImpl EvictingCacheBlocks} (h : AccumulatedSets T accesses c) :
    ∃ ECBS, (List.range T.nSets).foldlM (countECBs T c.cacheSets) (List.replicate T.nSets 0) =
      .ok ECBS ∧ ECBS.length = T.nSets ∧
      ∀ (i n : ℕ), ECBS[i]? = some n → EvictingCount T accesses i n := by
  have hloop : ∀ k ≤ T.nSets, ∃ ECBS, (List.range k).foldlM (countECBs T c.cacheSets)
      (List.replicate T.nSets 0) = .ok ECBS ∧ ECBS.length = T.nSets ∧
      ∀ i < k, ∀ n, ECBS[i]? = some n → EvictingCount T accesses i n := by
    intro k hk
    induction k with
    | zero => exact ⟨_, rfl, List.length_replicate, by simp⟩
    | succ k ih =>
      obtain ⟨ECBS, hok, hlength, hspec⟩ := ih (by omega)
      have hset : k < c.cacheSets.length := by
        rw [h.1]
        omega
      have hlt : k < ECBS.length := by omega
      have hacc := h.2 k _ (List.getElem?_eq_getElem hset)
      have hcount := hacc.evictingCount
      have hstep : countECBs T c.cacheSets ECBS k = .ok (ECBS.set k
          (if (c.cacheSets[k]).isTop then T.associativity else (c.cacheSets[k]).accessedTags.card)) := by
        rw [countECBs, read_of_lt hset, ok_bind]
        cases htop : (c.cacheSets[k]).isTop with
        | true => simp [write_of_lt hlt]
        | false =>
          have hcard : (c.cacheSets[k]).accessedTags.card < 2 ^ 32 := by
            have hcause := hacc.top.not.mp (by rw [EvictingCacheBlocks.isTop] at htop; simp [htop])
            rw [not_or, not_lt, ← hacc.tags htop] at hcause
            omega
          simp [EvictingCacheBlocks.getAccessedTags, htop, ok_bind, write_of_lt hlt,
            toUnsigned_of_lt hcard]
      rw [List.range_succ, List.foldlM_append, hok, ok_bind, List.foldlM_cons, hstep, ok_bind,
        List.foldlM_nil]
      refine ⟨_, rfl, by rw [List.length_set, hlength], fun i hi n hn => ?_⟩
      by_cases hik : k = i
      · subst hik
        rw [List.getElem?_set_self hlt, Option.some_inj] at hn
        rw [← hn]
        exact hcount
      · rw [List.getElem?_set_ne hik] at hn
        exact hspec i (by omega) n hn
  obtain ⟨ECBS, hok, hlength, hspec⟩ := hloop T.nSets le_rfl
  refine ⟨ECBS, hok, hlength, fun i n hn => hspec i ?_ n hn⟩
  rw [← hlength]
  exact (List.getElem?_eq_some_iff.mp hn).choose

theorem computeECBsPerSet_ok (hT : T.Geometry) (hassoc : T.associativity < 2 ^ 32)
    (hexact : ∀ addr ∈ edgeAccesses G P, ExactAccess T addr) :
    ∃ ECBS, computeECBsPerSet T G P = .ok ECBS ∧ ECBS.length = T.nSets ∧
      ∀ (i n : ℕ), ECBS[i]? = some n → EvictingCount T (edgeAccesses G P) i n := by
  have hnew : AccumulatedSets T []
      (AbstractCacheImpl.new T (EvictingCacheBlocks.setAnalysis T) false) := by
    refine ⟨by simp [AbstractCacheImpl.new], fun i s hs => ?_⟩
    obtain rfl := (List.mem_replicate.mp (List.mem_of_getElem? hs)).2
    exact accumulated_nil i false
  obtain ⟨c, hc, hacc⟩ := hnew.foldlM hT hexact
  obtain ⟨ECBS, hok, hlength, hspec⟩ := countECBs_spec hassoc hacc
  rw [computeECBsPerSet, runSimpleAccumulatedEdgeEffectAnalysis_eq, hc, ok_bind]
  exact ⟨ECBS, hok, hlength, hspec⟩

theorem foldl_toUnsigned (l : List ℕ) (sum : ℕ) :
    l.foldl (fun sum ECBs => toUnsigned (sum + ECBs)) (toUnsigned sum) =
      toUnsigned (sum + l.sum) := by
  induction l generalizing sum with
  | nil => simp
  | cons n l ih =>
    have hstep : toUnsigned (toUnsigned sum + n) = toUnsigned (sum + n) :=
      Nat.mod_add_mod sum (2 ^ 32) n
    rw [List.foldl_cons, hstep, ih, List.sum_cons, Nat.add_assoc]

/-- Addresses in the intervals of accesses. -/
def Accesses (accesses : List AbstractAddress) (addresses : List ℕ) : Prop :=
  List.Forall₂ (fun addr a => a ∈ addr.interval) accesses addresses

/-- What is accessed in a set that no access in several lines reaches has been collected. -/
theorem mem_accessedBlocks (hT : T.Geometry) (himprecise : ¬Imprecise T i accesses)
    {made : List AbstractAddress} (hmade : made ⊆ accesses) {addresses : List ℕ}
    (h : Accesses made addresses) {t : ℕ}
    (ht : t ∈ Lru.linesOf (getindex T) (getTag T) i addresses) : t ∈ accessedBlocks T i accesses := by
  obtain ⟨a, ha, rfl⟩ := List.mem_map.mp ht
  obtain ⟨haddresses, hindex⟩ := List.mem_filter.mp ha
  rw [decide_eq_true_eq] at hindex
  have hsource : ∃ addr ∈ made, a ∈ addr.interval := by
    clear ht ha hmade
    induction h with
    | nil => cases haddresses
    | @cons addr b made addresses hb _ ih =>
      rcases List.mem_cons.mp haddresses with rfl | haddresses
      · exact ⟨addr, List.mem_cons_self, hb⟩
      · obtain ⟨addr', hmem, hin⟩ := ih haddresses
        exact ⟨addr', List.mem_cons_of_mem addr hmem, hin⟩
  obtain ⟨addr, haddr, hin⟩ := hsource
  have hline : SameLine T addr := by
    by_contra hline
    exact himprecise ⟨addr, hmade haddr, hline, a, hin, hindex⟩
  obtain ⟨htag, hset⟩ := eq_of_sameLine hT hline hin
  rw [accessedBlocks, List.mem_toFinset, List.mem_map]
  refine ⟨addr, List.mem_filter.mpr ⟨hmade haddr, ?_⟩, htag.symm⟩
  rw [decide_eq_true_eq, ← hset]
  exact ⟨hline, hindex⟩

/-- Whatever the preempting task does, a block of the preempted task ages by the number of
evicting blocks at most, and survives if its age leaves a way for each of them. -/
theorem preempted_survives (hT : T.Geometry) (hassoc : T.associativity < 2 ^ 32)
    (hexact : ∀ addr ∈ edgeAccesses G P, ExactAccess T addr) {ECBS : List ℕ}
    (hok : computeECBsPerSet T G P = .ok ECBS) {path : List GraphEdge}
    (hpath : ∀ edge ∈ path, G.hasEdge edge) {addresses : List ℕ}
    (haddresses : Accesses (path.flatMap P.addresses) addresses)
    (c : ℕ → Lru.CacheSet ℕ T.associativity) {n t a : ℕ} (hn : ECBS[i]? = some n)
    (ht : (c i).Within t a) (hways : a + n < T.associativity) :
    (addresses.foldl (Lru.cacheAccess (getindex T) (getTag T)) c i).Within t (a + n) := by
  obtain ⟨ECBS', hok', _, hspec⟩ := computeECBsPerSet_ok hT hassoc hexact
  rw [hok] at hok'
  cases hok'
  have hcount := hspec i n hn
  have himprecise : ¬Imprecise T i (edgeAccesses G P) := by
    intro himprecise
    have := hcount.imprecise himprecise
    omega
  have hmade : path.flatMap P.addresses ⊆ edgeAccesses G P := by
    intro addr haddr
    obtain ⟨edge, hedge, haddr⟩ := List.mem_flatMap.mp haddr
    exact List.mem_flatMap.mpr ⟨edge, Graph.mem_edges.mpr (hpath edge hedge), haddr⟩
  have hcard : n = (accessedBlocks T i (edgeAccesses G P)).card := by
    have := hcount.precise himprecise
    omega
  rw [Lru.foldl_cacheAccess, hcard]
  apply ht.after
  · exact fun t ht => mem_accessedBlocks hT himprecise hmade haddresses ht
  · rw [← hcard]
    exact hways

/-- A loop that accesses two lines of the set 1 of four. -/
def twoBlocks : EdgeWeightProvider (List AbstractAddress) where
  edge2weight edge :=
    if edge = (0, 1) then some [.ofAddress 20 (by decide), .ofAddress 84 (by decide)] else none

/-- A block of age one survives both accesses of the loop. -/
theorem preempted_survives_twoBlocks :
    let c : ℕ → Lru.CacheSet ℕ 4 := fun _ => (Lru.CacheSet.empty.access 7).access 9
    computeECBsPerSet (fourSets 4) (.ofEdges [(0, 1), (1, 0)]) twoBlocks = .ok [0, 2, 0, 0] ∧
      ([20, 84].foldl (Lru.cacheAccess (getindex (fourSets 4)) (getTag (fourSets 4))) c 1).Within
        7 3 := by
  intro c
  have hok : computeECBsPerSet (fourSets 4) (.ofEdges [(0, 1), (1, 0)]) twoBlocks =
      .ok [0, 2, 0, 0] := by decide +kernel
  have haddresses : Accesses ([(0, 1)].flatMap twoBlocks.addresses) [20, 84] :=
    .cons ⟨by decide, by decide⟩ (.cons ⟨by decide, by decide⟩ .nil)
  exact ⟨hok, preempted_survives (geometry_fourSets 4) (by decide) (by decide) hok (by decide)
    haddresses c (n := 2) (a := 1) rfl ⟨by decide, by decide⟩ (by decide)⟩

end CacheRelatedPreemptionDelay

end Llvmta
