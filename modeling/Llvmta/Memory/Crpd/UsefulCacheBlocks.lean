import Llvmta.Memory.Crpd.ConstrainedAges

/-!
# The useful blocks of each program point

The blocks that are in both may caches of a program point are useful there. The preemption
delay counts the useful blocks that do not survive the accesses of the other task, at the
program point where they are most; the blocks that are useful somewhere are collected per set
and all together. Each of these loops over the stored elements of a set. More useful blocks
cost more, as long as no set is negated: the stored elements of a negated set are the blocks
that are not useful.
-/

namespace Llvmta

open Checked

/-- The useful blocks of all cache sets, at each program point in their order. -/
abbrev UCBsPerPP := List (List ImplicitSet)

/-- The accesses that lead to each program point, to each cache set, along the edges and
against them. -/
structure AgeRuns where
  forwards : ℕ → ℕ → AgeRun
  backwards : ℕ → ℕ → AgeRun

namespace CacheRelatedPreemptionDelay

variable (T : CacheTraits) (R : AgeRuns)

def commonElements (Set1 Set2 : LruMinAgeAbstractCache) : ImplicitSet :=
  let S1 := Set1.getTagsWithMaxMinAge (T.associativity - 1)
  let S2 := Set2.getTagsWithMaxMinAge (T.associativity - 1)
  ImplicitSet.intersect S1 S2

def commonSet (Sets1 Sets2 : List LruMinAgeAbstractCache) (CommonElems : List ImplicitSet)
    (i : ℕ) : Except Fault (List ImplicitSet) := do
  let Set1 ← read Sets1 i
  let Set2 ← read Sets2 i
  write CommonElems i (commonElements T Set1 Set2)

/-- The blocks that both may caches of a program point can have. -/
def computeCommonElements (Sets1 Sets2 : List LruMinAgeAbstractCache) :
    Except Fault (List ImplicitSet) :=
  (List.range T.nSets).foldlM (commonSet T Sets1 Sets2) (List.replicate T.nSets ⟨[], false⟩)

/-- The useful blocks of the set `i` at a program point. -/
def setAt (UCBs : UCBsPerPP) (i PP : ℕ) : ImplicitSet :=
  (UCBs[PP]?.getD [])[i]?.getD ⟨[], false⟩

def constrainedAge (UCBs : UCBsPerPP) (run : AgeRun) (i : ℕ) (Elem : TagType) : ℕ :=
  (run.eval T.associativity (setAt UCBs i)).getConstrainedAge Elem

/-- The number of accesses that a block survives. -/
def resilience (UCBs : UCBsPerPP) (PP i : ℕ) (Elem : TagType) : ℕ :=
  let AgeF := constrainedAge T UCBs (R.forwards PP i) i Elem
  let AgeB := constrainedAge T UCBs (R.backwards PP i) i Elem
  (T.associativity - 1) - min (AgeF + AgeB) (T.associativity - 1)

def computeResiliencePerPP (UCBs : UCBsPerPP) : ResInfo :=
  UCBs.mapIdx fun PP UCBPP => UCBPP.mapIdx fun SetNum Set =>
    Set.elements.foldl
      (fun ResMap Elem => ResMap.insert Elem (resilience T R UCBs PP SetNum Elem)) .empty

/-- Counts a block that is lost by `NumECBs` accesses. -/
def countElem (ResSet : ResMap) (NumECBs crpdPP : ℕ) (Elem : TagType) : Except Fault ℕ :=
  match ResSet.find? Elem with
  | none => .error (.assertion "ResSet.find(Elem) != ResSet.end()")
  | some Res => .ok (if Res < NumECBs then (crpdPP + 1) % 2 ^ 32 else crpdPP)

def countSet (ECBs : List ℕ) (ResPP : List ResMap) (UCBPP : List ImplicitSet) (crpdPP i : ℕ) :
    Except Fault ℕ := do
  let NumECBs ← read ECBs i
  let ResSet ← read ResPP i
  let UCBSet ← read UCBPP i
  UCBSet.elements.foldlM (countElem ResSet NumECBs) crpdPP

def visitPP (UCBs : UCBsPerPP) (Resilience : ResInfo) (ECBs : List ℕ) (crpd PP : ℕ) :
    Except Fault ℕ := do
  let ResPP ← read Resilience PP
  let UCBPP ← read UCBs PP
  let crpdPP ← (List.range T.nSets).foldlM (countSet ECBs ResPP UCBPP) 0
  .ok (max crpd crpdPP)

/-- The preemption delay, with the cache reload time `CRT`. -/
def runResilienceAnalysis (UCBs : UCBsPerPP) (ECBs : List ℕ) (CRT : ℕ) : Except Fault ℕ := do
  let crpd ← (List.range UCBs.length).foldlM
    (visitPP T UCBs (computeResiliencePerPP T R UCBs) ECBs) 0
  .ok (CRT * crpd % 2 ^ 32)

def collectSet (Sets Result : List ImplicitSet) (i : ℕ) : Except Fault (List ImplicitSet) := do
  let UCBsSet ← read Sets i
  let own ← read Result i
  write Result i (own.insertRange UCBsSet.elements)

/-- The blocks of each set that are useful at some program point. -/
def computeUCBsSetWise (N_SETS : ℕ) (UCBs : UCBsPerPP) : Except Fault (List ImplicitSet) :=
  UCBs.foldlM (fun Result Sets => (List.range N_SETS).foldlM (collectSet Sets) Result)
    (List.replicate N_SETS ⟨[], false⟩)

def insertSet (UCBs : List ImplicitSet) (Result : ImplicitSet) (i : ℕ) :
    Except Fault ImplicitSet := do
  let UCBsSet ← read UCBs i
  .ok (Result.insertRange UCBsSet.elements)

/-- The blocks that are useful at some program point. -/
def computeUCBs (N_SETS : ℕ) (UCBs : UCBsPerPP) : Except Fault ImplicitSet := do
  let UCBs ← computeUCBsSetWise N_SETS UCBs
  (List.range N_SETS).foldlM (insertSet UCBs) ⟨[], false⟩

/-! ## The common blocks -/

section Common

variable {T} {Sets1 Sets2 : List LruMinAgeAbstractCache}

theorem computeCommonElements_spec (h₁ : Sets1.length = T.nSets) (h₂ : Sets2.length = T.nSets) :
    ∃ CommonElems : List ImplicitSet, computeCommonElements T Sets1 Sets2 = .ok CommonElems ∧
      CommonElems.length = T.nSets ∧ ∀ (i : ℕ) s, CommonElems[i]? = some s →
        ∃ Set1 Set2, Sets1[i]? = some Set1 ∧ Sets2[i]? = some Set2 ∧
          s = commonElements T Set1 Set2 := by
  have hloop : ∀ n ≤ T.nSets, ∃ CommonElems : List ImplicitSet, (List.range n).foldlM (commonSet T Sets1 Sets2)
      (List.replicate T.nSets ⟨[], false⟩) = .ok CommonElems ∧ CommonElems.length = T.nSets ∧
      ∀ i < n, ∀ s, CommonElems[i]? = some s → ∃ Set1 Set2,
        Sets1[i]? = some Set1 ∧ Sets2[i]? = some Set2 ∧ s = commonElements T Set1 Set2 := by
    intro n hn
    induction n with
    | zero => exact ⟨_, rfl, List.length_replicate, by simp⟩
    | succ n ih =>
      obtain ⟨CommonElems, hok, hlength, hspec⟩ := ih (by omega)
      have hlt₁ : n < Sets1.length := by omega
      have hlt₂ : n < Sets2.length := by omega
      have hlt : n < CommonElems.length := by omega
      rw [List.range_succ, List.foldlM_append, hok, ok_bind, List.foldlM_cons, commonSet,
        read_of_lt hlt₁, ok_bind, read_of_lt hlt₂, ok_bind, write_of_lt hlt]
      refine ⟨_, rfl, by rw [List.length_set, hlength], fun i hi s hs => ?_⟩
      by_cases hin : n = i
      · subst hin
        rw [List.getElem?_set_self hlt, Option.some_inj] at hs
        exact ⟨_, _, List.getElem?_eq_getElem hlt₁, List.getElem?_eq_getElem hlt₂, hs.symm⟩
      · rw [List.getElem?_set_ne hin] at hs
        exact hspec i (by omega) s hs
  obtain ⟨CommonElems, hok, hlength, hspec⟩ := hloop T.nSets le_rfl
  refine ⟨CommonElems, hok, hlength, fun i s hs => hspec i ?_ s hs⟩
  rw [← hlength]
  exact (List.getElem?_eq_some_iff.mp hs).choose

/-- The useful blocks are negated where both may caches can have blocks that they do not
list. -/
theorem isUniverse_commonElements (Set1 Set2 : LruMinAgeAbstractCache) :
    (commonElements T Set1 Set2).isUniverse = true ↔
      (Set1.ageOfImplicitTags : ℤ) < T.associativity ∧
        (Set2.ageOfImplicitTags : ℤ) < T.associativity := by
  have hone (S : LruMinAgeAbstractCache) :
      (S.getTagsWithMaxMinAge (T.associativity - 1)).isUniverse = true ↔
        (S.ageOfImplicitTags : ℤ) < T.associativity := by
    unfold LruMinAgeAbstractCache.getTagsWithMaxMinAge
    split_ifs with h
    · simp only [true_iff]
      omega
    · simp only [false_iff]
      omega
  unfold commonElements
  rw [ImplicitSet.isUniverse_intersect, Bool.and_eq_true, hone, hone]

end Common

/-! ## The collected blocks -/

section Collected

variable {N : ℕ} {UCBs : UCBsPerPP} {Sets Result : List ImplicitSet} {tag : TagType}

/-- The sets collected so far: one for each cache set, none of them negated. -/
structure Collects (N : ℕ) (Result : List ImplicitSet) : Prop where
  length : Result.length = N
  positive : ∀ r ∈ Result, r.isUniverse = false

/-- The tag is among the blocks collected for the set `i`. -/
def Collected (Result : List ImplicitSet) (i : ℕ) (tag : TagType) : Prop :=
  ∃ r, Result[i]? = some r ∧ tag ∈ r

/-- The tag is stored in the set `i`. -/
def Stored (Sets : List ImplicitSet) (i : ℕ) (tag : TagType) : Prop :=
  ∃ s, Sets[i]? = some s ∧ tag ∈ s.elements

theorem collects_replicate (N : ℕ) : Collects N (List.replicate N ⟨[], false⟩) := by
  constructor
  · exact List.length_replicate
  · intro r hr
    rw [(List.mem_replicate.mp hr).2]

theorem Collects.collectSet (h : Collects N Result) (hSets : Sets.length = N) {i : ℕ}
    (hi : i < N) : ∃ Result', collectSet Sets Result i = .ok Result' ∧ Collects N Result' := by
  have hown : i < Result.length := by rw [h.length]; exact hi
  have hset : i < Sets.length := by rw [hSets]; exact hi
  unfold CacheRelatedPreemptionDelay.collectSet
  rw [read_of_lt hset, ok_bind, read_of_lt hown, ok_bind, write_of_lt hown]
  refine ⟨_, rfl, by rw [List.length_set, h.length], fun r hr => ?_⟩
  rcases List.mem_or_eq_of_mem_set hr with hr | rfl
  · exact h.positive r hr
  · rw [ImplicitSet.isUniverse_insertRange]
    exact h.positive _ (List.getElem_mem hown)

/-- A step of the inner loop adds the stored elements of one set. -/
theorem collected_collectSet {i j : ℕ} {Result' : List ImplicitSet}
    (h : collectSet Sets Result j = .ok Result') :
    Collected Result' i tag ↔ Collected Result i tag ∨ (j = i ∧ Stored Sets i tag) := by
  obtain ⟨UCBsSet, hset, h⟩ := bind_eq_ok.mp h
  obtain ⟨own, hown, h⟩ := bind_eq_ok.mp h
  unfold Collected Stored
  rw [getElem?_of_write h]
  by_cases hij : j = i
  · subst hij
    simp [getElem?_of_read hown, getElem?_of_read hset, or_comm]
  · simp [hij]

/-- The blocks collected for a set are those that are stored in it at some program point. -/
theorem computeUCBsSetWise_spec (hlength : ∀ Sets ∈ UCBs, Sets.length = N) :
    ∃ Result, computeUCBsSetWise N UCBs = .ok Result ∧ Collects N Result ∧
      ∀ i tag, Collected Result i tag ↔ i < N ∧ ∃ Sets ∈ UCBs, Stored Sets i tag := by
  obtain ⟨Result, hresult, hcollects⟩ : ∃ Result, computeUCBsSetWise N UCBs = .ok Result ∧
      Collects N Result := by
    apply foldlM_returns _ (collects_replicate N)
    intro Result Sets hSets hResult
    apply foldlM_returns _ hResult
    intro Result i hi hResult
    exact hResult.collectSet (hlength Sets hSets) (List.mem_range.mp hi)
  refine ⟨Result, hresult, hcollects, fun i tag => ?_⟩
  have hadds := foldlM_adds (H := fun Result => Collected Result i tag)
    (A := fun Sets => ∃ j ∈ List.range N, j = i ∧ Stored Sets i tag)
    (fun Result Sets Result' h => foldlM_adds (fun _ _ _ h => collected_collectSet h) h) hresult
  have hnone : ¬ Collected (List.replicate N ⟨[], false⟩) i tag := by
    rintro ⟨r, hr, htag⟩
    obtain rfl := (List.mem_replicate.mp (List.mem_of_getElem? hr)).2
    simp [ImplicitSet.mem_iff] at htag
  rw [hadds]
  simp only [hnone, false_or, List.mem_range]
  constructor
  · rintro ⟨Sets, hSets, j, hj, rfl, hstored⟩
    exact ⟨hj, Sets, hSets, hstored⟩
  · rintro ⟨hi, Sets, hSets, hstored⟩
    exact ⟨Sets, hSets, i, hi, rfl, hstored⟩

theorem computeUCBs_spec (hlength : ∀ Sets ∈ UCBs, Sets.length = N) :
    ∃ Result, computeUCBs N UCBs = .ok Result ∧
      ∀ tag, tag ∈ Result ↔ ∃ i < N, ∃ Sets ∈ UCBs, Stored Sets i tag := by
  obtain ⟨sets, hsets, hcollects, hmem⟩ := computeUCBsSetWise_spec hlength
  obtain ⟨Result, hresult, -⟩ : ∃ Result, (List.range N).foldlM (insertSet sets)
      ⟨[], false⟩ = .ok Result ∧ True := by
    apply foldlM_returns _ trivial
    intro Result i hi _
    have hlt : i < sets.length := by rw [hcollects.length]; exact List.mem_range.mp hi
    unfold insertSet
    rw [read_of_lt hlt, ok_bind]
    exact ⟨_, rfl, trivial⟩
  refine ⟨Result, ?_, fun tag => ?_⟩
  · unfold computeUCBs
    rw [hsets, ok_bind, hresult]
  have hadds := foldlM_adds (H := fun Result : ImplicitSet => tag ∈ Result)
    (A := fun i => Collected sets i tag) (fun Result i Result' h => by
      obtain ⟨UCBsSet, hset, h⟩ := bind_eq_ok.mp h
      cases h
      have hget := getElem?_of_read hset
      have hpos := hcollects.positive UCBsSet (List.mem_of_getElem? hget)
      simp [Collected, hget, ImplicitSet.mem_of_positive hpos, or_comm]) hresult
  rw [hadds]
  have hnone : tag ∉ (⟨[], false⟩ : ImplicitSet) := by simp [ImplicitSet.mem_iff]
  simp only [hnone, false_or, List.mem_range, hmem]
  constructor
  · rintro ⟨i, _, hi, hstored⟩
    exact ⟨i, hi, hstored⟩
  · rintro ⟨i, hi, hstored⟩
    exact ⟨i, hi, hi, hstored⟩

end Collected

/-! ## The preemption delay -/

section Delay

variable {T R} {UCBs UCBs' : UCBsPerPP} {ECBs : List ℕ} {PP i : ℕ}

/-- The number of blocks stored in a set that `ECBs` accesses to it would evict. -/
def useless (T : CacheTraits) (R : AgeRuns) (UCBs : UCBsPerPP) (ECBs : List ℕ) (PP i : ℕ) : ℕ :=
  (setAt UCBs i PP).elements.countP fun Elem =>
    resilience T R UCBs PP i Elem < ECBs[i]?.getD 0

/-- The number of stored blocks of a program point that are evicted. -/
def uselessAt (T : CacheTraits) (R : AgeRuns) (UCBs : UCBsPerPP) (ECBs : List ℕ) (PP : ℕ) : ℕ :=
  ((List.range T.nSets).map (useless T R UCBs ECBs PP)).sum

/-- The number of blocks stored at a program point. -/
def storedCount (Sets : List ImplicitSet) : ℕ := (Sets.map fun s => s.elements.length).sum

theorem foldlM_countElem {ResSet : ResMap} {NumECBs : ℕ} {res : TagType → ℕ} {l : List TagType}
    (hres : ∀ Elem ∈ l, ResSet.find? Elem = some (res Elem)) {crpdPP : ℕ}
    (hfew : crpdPP + l.countP (fun Elem => res Elem < NumECBs) < 2 ^ 32) :
    l.foldlM (countElem ResSet NumECBs) crpdPP =
      .ok (crpdPP + l.countP fun Elem => res Elem < NumECBs) := by
  induction l generalizing crpdPP with
  | nil => rfl
  | cons Elem l ih =>
    have hrest (c : ℕ) (hc : c + l.countP (fun Elem => res Elem < NumECBs) < 2 ^ 32) :=
      ih (fun e he => hres e (List.mem_cons_of_mem _ he)) hc
    rw [List.foldlM_cons, countElem, hres Elem List.mem_cons_self]
    dsimp only
    rw [ok_bind]
    rw [List.countP_cons] at hfew ⊢
    by_cases hlost : res Elem < NumECBs
    · simp only [hlost, decide_true, if_true] at hfew ⊢
      rw [Nat.mod_eq_of_lt (by omega), hrest _ (by omega)]
      congr 1
      omega
    · simp only [hlost, decide_false, Bool.false_eq_true, if_false, Nat.add_zero] at hfew ⊢
      exact hrest _ hfew

theorem setAt_of_getElem? {UCBPP : List ImplicitSet} {s : ImplicitSet}
    (hPP : UCBs[PP]? = some UCBPP) (hi : UCBPP[i]? = some s) : setAt UCBs i PP = s := by
  simp [setAt, hPP, hi]

/-- The resilience of each stored block is found. -/
theorem read_computeResiliencePerPP {UCBPP : List ImplicitSet} {s : ImplicitSet}
    (hPP : UCBs[PP]? = some UCBPP) (hi : UCBPP[i]? = some s) :
    ∃ ResPP ResSet, read (computeResiliencePerPP T R UCBs) PP = .ok ResPP ∧
      read ResPP i = .ok ResSet ∧
      ∀ Elem ∈ s.elements, ResSet.find? Elem = some (resilience T R UCBs PP i Elem) := by
  obtain ⟨hPPlt, hPPget⟩ := List.getElem?_eq_some_iff.mp hPP
  obtain ⟨hilt, higet⟩ := List.getElem?_eq_some_iff.mp hi
  have hPPlt' : PP < (computeResiliencePerPP T R UCBs).length := by
    rw [computeResiliencePerPP, List.length_mapIdx]
    exact hPPlt
  refine ⟨_, _, read_of_lt hPPlt', read_of_lt (by simpa [computeResiliencePerPP, hPPget]), ?_⟩
  intro Elem hElem
  simp only [computeResiliencePerPP, List.getElem_mapIdx, hPPget, higet]
  rw [OrderedMap.find?_foldl_insert, if_pos hElem]

/-- The loop over the first sets of a program point. -/
theorem foldlM_countSet {UCBPP : List ImplicitSet} {ResPP : List ResMap}
    (hPP : UCBs[PP]? = some UCBPP)
    (hRes : read (computeResiliencePerPP T R UCBs) PP = .ok ResPP) {n : ℕ}
    (hsets : n ≤ UCBPP.length) (hECBs : n ≤ ECBs.length)
    (hfew : ((List.range n).map (useless T R UCBs ECBs PP)).sum < 2 ^ 32) :
    (List.range n).foldlM (countSet ECBs ResPP UCBPP) 0 =
      .ok ((List.range n).map (useless T R UCBs ECBs PP)).sum := by
  induction n with
  | zero => rfl
  | succ n ih =>
    rw [List.range_succ, List.map_append, List.sum_append, List.map_singleton,
      List.sum_singleton] at hfew ⊢
    have hi : UCBPP[n]? = some UCBPP[n] := List.getElem?_eq_getElem hsets
    have hset := setAt_of_getElem? hPP hi
    obtain ⟨ResPP', ResSet, hResPP, hResSet, hfind⟩ :=
      read_computeResiliencePerPP (T := T) (R := R) hPP hi
    obtain rfl : ResPP = ResPP' := by
      rw [hRes] at hResPP
      exact Except.ok.inj hResPP
    rw [List.foldlM_append, ih (by omega) (by omega) (by omega), ok_bind, List.foldlM_cons,
      countSet, read_of_lt (by omega : n < ECBs.length), ok_bind, hResSet, ok_bind,
      read_of_lt (by omega : n < UCBPP.length), ok_bind]
    have hECB : ECBs[n]?.getD 0 = ECBs[n] := by
      rw [List.getElem?_eq_getElem (by omega), Option.getD_some]
    have hcount : useless T R UCBs ECBs PP n = UCBPP[n].elements.countP fun Elem =>
        resilience T R UCBs PP n Elem < ECBs[n] := by
      rw [useless, hset, hECB]
    rw [hcount] at hfew ⊢
    rw [foldlM_countElem hfind hfew]
    rfl

theorem useless_le (T : CacheTraits) (R : AgeRuns) (UCBs : UCBsPerPP) (ECBs : List ℕ)
    (PP i : ℕ) : useless T R UCBs ECBs PP i ≤ (setAt UCBs i PP).elements.length :=
  List.countP_le_length

theorem uselessAt_le {UCBPP : List ImplicitSet} (hPP : UCBs[PP]? = some UCBPP)
    (hlength : UCBPP.length = T.nSets) : uselessAt T R UCBs ECBs PP ≤ storedCount UCBPP := by
  have hsets : (List.range T.nSets).map (fun i => (setAt UCBs i PP).elements.length) =
      UCBPP.map fun s => s.elements.length := by
    apply List.ext_getElem
    · simp [hlength]
    · intro i hi hi'
      have hget := List.getElem?_eq_getElem (l := UCBPP) (i := i) (by simpa using hi')
      simp [setAt_of_getElem? hPP hget]
  unfold uselessAt storedCount
  rw [← hsets]
  exact List.sum_le_sum fun i _ => useless_le T R UCBs ECBs PP i

/-- The preemption delay is the reload time of the blocks that are evicted at the worst
program point. -/
theorem runResilienceAnalysis_eq (hlength : ∀ Sets ∈ UCBs, Sets.length = T.nSets)
    (hfew : ∀ Sets ∈ UCBs, storedCount Sets < 2 ^ 32) (hECBs : ECBs.length = T.nSets)
    (CRT : ℕ) : runResilienceAnalysis T R UCBs ECBs CRT = .ok (CRT *
      (List.range UCBs.length).foldl (fun c PP => max c (uselessAt T R UCBs ECBs PP)) 0 %
        2 ^ 32) := by
  have hloop : ∀ n ≤ UCBs.length, (List.range n).foldlM
      (visitPP T UCBs (computeResiliencePerPP T R UCBs) ECBs) 0 =
      .ok ((List.range n).foldl (fun c PP => max c (uselessAt T R UCBs ECBs PP)) 0) := by
    intro n hn
    induction n with
    | zero => rfl
    | succ n ih =>
      have hPP : UCBs[n]? = some UCBs[n] := List.getElem?_eq_getElem hn
      have hmem : UCBs[n] ∈ UCBs := List.getElem_mem hn
      have hlt : n < (computeResiliencePerPP T R UCBs).length := by
        rw [computeResiliencePerPP, List.length_mapIdx]
        exact hn
      have hbound : uselessAt T R UCBs ECBs n < 2 ^ 32 :=
        (uselessAt_le hPP (hlength _ hmem)).trans_lt (hfew _ hmem)
      rw [List.range_succ, List.foldlM_append, ih (by omega), ok_bind, List.foldlM_cons, visitPP,
        read_of_lt hlt, ok_bind, read_of_lt hn, ok_bind,
        foldlM_countSet hPP (read_of_lt hlt) (hlength _ hmem).ge hECBs.ge hbound, ok_bind,
        List.foldl_append]
      rfl
  rw [runResilienceAnalysis, hloop _ le_rfl, ok_bind]

end Delay

/-! ## Enlarged sets -/

/-- Useful blocks of `N` cache sets. No element is stored twice, and fewer are stored at a
program point than an unsigned number can count. -/
structure UCBMap (N : ℕ) where
  perPP : UCBsPerPP
  length_eq : ∀ Sets ∈ perPP, Sets.length = N
  nodup : ∀ Sets ∈ perPP, ∀ s ∈ Sets, s.elements.Nodup
  few : ∀ Sets ∈ perPP, storedCount Sets < 2 ^ 32

section Monotone

variable {N : ℕ} {T R} {U U' : UCBMap T.nSets} {ECBs : List ℕ} {PP i : ℕ}

/-- Each set of the second map has all members of that of the first map. -/
def UCBMap.EnlargedTo (U U' : UCBMap N) : Prop :=
  U.perPP.length = U'.perPP.length ∧
    ∀ PP i tag, tag ∈ setAt U.perPP i PP → tag ∈ setAt U'.perPP i PP

/-- What enlarging the sets of a map to those of `U'` does to the results: the delay does not
decrease, for any reload time with which it is not too large to be represented, and no
collected block is lost. -/
def Respects (T : CacheTraits) (R : AgeRuns) (U' : UCBMap T.nSets) : Prop :=
  ∀ U : UCBMap T.nSets, U.EnlargedTo U' →
    (∀ ECBs CRT, ECBs.length = T.nSets → (∀ Sets ∈ U'.perPP, CRT * storedCount Sets < 2 ^ 32) →
      ∃ crpd crpd', runResilienceAnalysis T R U.perPP ECBs CRT = .ok crpd ∧
        runResilienceAnalysis T R U'.perPP ECBs CRT = .ok crpd' ∧ crpd ≤ crpd') ∧
    (∃ Result Result', computeUCBsSetWise T.nSets U.perPP = .ok Result ∧
      computeUCBsSetWise T.nSets U'.perPP = .ok Result' ∧
      ∀ i tag, Collected Result i tag → Collected Result' i tag) ∧
    ∃ Result Result', computeUCBs T.nSets U.perPP = .ok Result ∧
      computeUCBs T.nSets U'.perPP = .ok Result' ∧ ∀ tag, tag ∈ Result → tag ∈ Result'

theorem setAt_cases (UCBs : UCBsPerPP) (i PP : ℕ) :
    setAt UCBs i PP = ⟨[], false⟩ ∨
      ∃ Sets, UCBs[PP]? = some Sets ∧ Sets[i]? = some (setAt UCBs i PP) := by
  unfold setAt
  cases hPP : UCBs[PP]? with
  | none => exact .inl rfl
  | some Sets =>
    cases hi : Sets[i]? with
    | none => exact .inl (by simp [hi])
    | some s => exact .inr ⟨Sets, rfl, by simp [hi]⟩

theorem nodup_setAt (U : UCBMap N) (i PP : ℕ) : (setAt U.perPP i PP).elements.Nodup := by
  rcases setAt_cases U.perPP i PP with hnone | ⟨Sets, hSets, hset⟩
  · rw [hnone]
    exact List.nodup_nil
  · exact U.nodup Sets (List.mem_of_getElem? hSets) _ (List.mem_of_getElem? hset)

/-- No set of the map is negated. -/
def UCBMap.Positive (U : UCBMap N) : Prop := ∀ Sets ∈ U.perPP, ∀ s ∈ Sets, s.isUniverse = false

theorem UCBMap.Positive.setAt {U : UCBMap N} (h : U.Positive) (i PP : ℕ) :
    (setAt U.perPP i PP).isUniverse = false := by
  rcases setAt_cases U.perPP i PP with hnone | ⟨Sets, hSets, hset⟩
  · rw [hnone]
  · exact h Sets (List.mem_of_getElem? hSets) _ (List.mem_of_getElem? hset)

theorem UCBMap.EnlargedTo.positive_setAt {U U' : UCBMap N} (h : U.EnlargedTo U')
    (hpos : U'.Positive) (i PP : ℕ) :
    (CacheRelatedPreemptionDelay.setAt U.perPP i PP).isUniverse = false := by
  by_contra hneg
  rw [Bool.not_eq_false] at hneg
  have hneg' := ImplicitSet.isUniverse_of_subset (h.2 PP i) hneg
  rw [hpos.setAt] at hneg'
  cases hneg'

theorem UCBMap.EnlargedTo.elements_subset {U U' : UCBMap N} (h : U.EnlargedTo U')
    (hpos : U'.Positive) (i PP : ℕ) :
    (CacheRelatedPreemptionDelay.setAt U.perPP i PP).elements ⊆
      (CacheRelatedPreemptionDelay.setAt U'.perPP i PP).elements := by
  intro tag htag
  have hmem := (ImplicitSet.mem_of_positive (h.positive_setAt hpos i PP)).mpr htag
  exact (ImplicitSet.mem_of_positive (hpos.setAt i PP)).mp (h.2 PP i tag hmem)

/-- A useful block does not survive more accesses when more blocks are useful. -/
theorem resilience_le (h : U.EnlargedTo U') (hpos : U'.Positive) (PP i : ℕ) (Elem : TagType) :
    resilience T R U'.perPP PP i Elem ≤ resilience T R U.perPP PP i Elem := by
  have hage (run : AgeRun) : constrainedAge T U.perPP run i Elem ≤
      constrainedAge T U'.perPP run i Elem :=
    (run.eval_below (h.positive_setAt hpos i) (hpos.setAt i) (h.elements_subset hpos i)).age Elem
  have hforwards := hage (R.forwards PP i)
  have hbackwards := hage (R.backwards PP i)
  unfold resilience
  dsimp only
  omega

theorem useless_mono (h : U.EnlargedTo U') (hpos : U'.Positive) :
    useless T R U.perPP ECBs PP i ≤ useless T R U'.perPP ECBs PP i := by
  unfold useless
  calc _ ≤ (setAt U.perPP i PP).elements.countP fun Elem =>
        resilience T R U'.perPP PP i Elem < ECBs[i]?.getD 0 := by
        apply List.countP_mono_left
        intro Elem _ hlost
        simp only [decide_eq_true_eq] at hlost ⊢
        exact (resilience_le h hpos PP i Elem).trans_lt hlost
    _ ≤ _ := (List.subperm_of_subset (nodup_setAt U i PP) (h.elements_subset hpos i PP)).countP_le _

theorem uselessAt_mono (h : U.EnlargedTo U') (hpos : U'.Positive) (PP : ℕ) :
    uselessAt T R U.perPP ECBs PP ≤ uselessAt T R U'.perPP ECBs PP :=
  List.sum_le_sum fun _ _ => useless_mono h hpos

theorem foldl_max_le {α : Type} {f g : α → ℕ} (hfg : ∀ a, f a ≤ g a) (l : List α) {c d : ℕ}
    (hcd : c ≤ d) :
    l.foldl (fun c a => max c (f a)) c ≤ l.foldl (fun c a => max c (g a)) d := by
  induction l generalizing c d with
  | nil => exact hcd
  | cons a l ih => exact ih (max_le_max hcd (hfg a))

/-- The maximum is zero or one of the numbers. -/
theorem foldl_max_induction {α : Type} {f : α → ℕ} {P : ℕ → Prop} {l : List α}
    (hl : ∀ a ∈ l, P (f a)) {c : ℕ} (hc : P c) : P (l.foldl (fun c a => max c (f a)) c) := by
  induction l generalizing c with
  | nil => exact hc
  | cons a l ih =>
    apply ih fun b hb => hl b (List.mem_cons_of_mem a hb)
    dsimp only
    rcases max_choice c (f a) with hmax | hmax
    · rw [hmax]
      exact hc
    · rw [hmax]
      exact hl a List.mem_cons_self

/-- A block is stored in a set at some program point. -/
theorem exists_stored_iff {UCBs : UCBsPerPP} {tag : TagType} :
    (∃ Sets ∈ UCBs, Stored Sets i tag) ↔ ∃ PP, tag ∈ (setAt UCBs i PP).elements := by
  constructor
  · rintro ⟨Sets, hSets, s, hs, htag⟩
    obtain ⟨PP, hPP⟩ := List.mem_iff_getElem?.mp hSets
    exact ⟨PP, by rwa [setAt_of_getElem? hPP hs]⟩
  · rintro ⟨PP, htag⟩
    rcases setAt_cases UCBs i PP with hnone | ⟨Sets, hSets, hset⟩
    · rw [hnone] at htag
      cases htag
    · exact ⟨Sets, List.mem_of_getElem? hSets, _, hset, htag⟩

theorem exists_stored_mono (h : U.EnlargedTo U') (hpos : U'.Positive) {tag : TagType}
    (hstored : ∃ Sets ∈ U.perPP, Stored Sets i tag) : ∃ Sets ∈ U'.perPP, Stored Sets i tag := by
  rw [exists_stored_iff] at hstored ⊢
  obtain ⟨PP, htag⟩ := hstored
  exact ⟨PP, h.elements_subset hpos i PP htag⟩

theorem respects_of_positive (hpos : U'.Positive) : Respects T R U' := by
  intro U h
  refine ⟨fun ECBs CRT hECBs hCRT => ?_, ?_, ?_⟩
  · rw [runResilienceAnalysis_eq U.length_eq U.few hECBs,
      runResilienceAnalysis_eq U'.length_eq U'.few hECBs, h.1]
    refine ⟨_, _, rfl, rfl, ?_⟩
    have hmono (PP : ℕ) : uselessAt T R U.perPP ECBs PP ≤ uselessAt T R U'.perPP ECBs PP :=
      uselessAt_mono h hpos PP
    have hle := Nat.mul_le_mul_left CRT
      (foldl_max_le hmono (List.range U'.perPP.length) (le_refl 0))
    have hbound : CRT * (List.range U'.perPP.length).foldl
        (fun c PP => max c (uselessAt T R U'.perPP ECBs PP)) 0 < 2 ^ 32 := by
      apply foldl_max_induction (P := fun c => CRT * c < 2 ^ 32)
      · intro PP hPP
        have hlt := List.mem_range.mp hPP
        have hmem := List.getElem_mem hlt
        have hstored : uselessAt T R U'.perPP ECBs PP ≤ storedCount U'.perPP[PP] :=
          uselessAt_le (List.getElem?_eq_getElem hlt) (U'.length_eq _ hmem)
        exact (Nat.mul_le_mul_left CRT hstored).trans_lt (hCRT _ hmem)
      · simp
    rw [Nat.mod_eq_of_lt hbound, Nat.mod_eq_of_lt (hle.trans_lt hbound)]
    exact hle
  · obtain ⟨Result, hresult, -, hmem⟩ := computeUCBsSetWise_spec U.length_eq
    obtain ⟨Result', hresult', -, hmem'⟩ := computeUCBsSetWise_spec U'.length_eq
    refine ⟨Result, Result', hresult, hresult', fun i tag htag => ?_⟩
    obtain ⟨hi, hstored⟩ := (hmem i tag).mp htag
    exact (hmem' i tag).mpr ⟨hi, exists_stored_mono h hpos hstored⟩
  · obtain ⟨Result, hresult, hmem⟩ := computeUCBs_spec U.length_eq
    obtain ⟨Result', hresult', hmem'⟩ := computeUCBs_spec U'.length_eq
    refine ⟨Result, Result', hresult, hresult', fun tag htag => ?_⟩
    obtain ⟨i, hi, hstored⟩ := (hmem tag).mp htag
    exact (hmem' tag).mpr ⟨i, hi, exists_stored_mono h hpos hstored⟩

/-- The cache sets of which only `i` has a useful block. -/
def onlySet (N i : ℕ) (tag : TagType) : List ImplicitSet :=
  (List.replicate N ⟨[], false⟩).set i ⟨[tag], false⟩

/-- The program points at which only `PP` has a useful block. -/
def onlyAt (points N PP i : ℕ) (tag : TagType) : UCBsPerPP :=
  (List.replicate points (List.replicate N ⟨[], false⟩)).set PP (onlySet N i tag)

theorem storedCount_replicate (N : ℕ) : storedCount (List.replicate N ⟨[], false⟩) = 0 := by
  simp [storedCount]

theorem storedCount_onlySet_le (N i : ℕ) (tag : TagType) : storedCount (onlySet N i tag) ≤ 1 := by
  unfold onlySet
  induction N generalizing i with
  | zero => simp [storedCount]
  | succ N ih =>
    rw [List.replicate_succ]
    cases i with
    | zero =>
      have hrest := storedCount_replicate N
      simp only [List.set_cons_zero, storedCount, List.map_cons, List.sum_cons] at hrest ⊢
      rw [hrest]
      rfl
    | succ i =>
      have hrest := ih i
      simp only [List.set_cons_succ, storedCount, List.map_cons, List.sum_cons] at hrest ⊢
      simpa using hrest

theorem mem_onlyAt {points N PP i : ℕ} {tag : TagType} {Sets : List ImplicitSet}
    (h : Sets ∈ onlyAt points N PP i tag) :
    Sets = List.replicate N ⟨[], false⟩ ∨ Sets = onlySet N i tag := by
  rcases List.mem_or_eq_of_mem_set h with h | rfl
  · exact .inl (List.mem_replicate.mp h).2
  · exact .inr rfl

/-- The map that has one useful block. -/
def UCBMap.only (points N PP i : ℕ) (tag : TagType) : UCBMap N where
  perPP := onlyAt points N PP i tag
  length_eq Sets hSets := by
    rcases mem_onlyAt hSets with rfl | rfl <;> simp [onlySet]
  nodup Sets hSets s hs := by
    have hcases : s = ⟨[], false⟩ ∨ s = ⟨[tag], false⟩ := by
      rcases mem_onlyAt hSets with rfl | rfl
      · exact .inl (List.mem_replicate.mp hs).2
      · rcases List.mem_or_eq_of_mem_set hs with hs | rfl
        · exact .inl (List.mem_replicate.mp hs).2
        · exact .inr rfl
    rcases hcases with rfl | rfl <;> simp
  few Sets hSets := by
    rcases mem_onlyAt hSets with rfl | rfl
    · rw [storedCount_replicate]
      decide
    · exact (storedCount_onlySet_le N i tag).trans_lt (by decide)

theorem mem_setAt_onlyAt {points N PP PP' i i' : ℕ} {tag tag' : TagType}
    (h : tag' ∈ setAt (onlyAt points N PP i tag) i' PP') : PP' = PP ∧ i' = i ∧ tag' = tag := by
  have hempty (t : TagType) : t ∉ (⟨[], false⟩ : ImplicitSet) := by simp [ImplicitSet.mem_iff]
  rcases setAt_cases (onlyAt points N PP i tag) i' PP' with hnone | ⟨Sets, hSets, hset⟩
  · rw [hnone] at h
    exact absurd h (hempty tag')
  · have hPP : PP' = PP := by
      by_contra hne
      rw [onlyAt, List.getElem?_set_ne (Ne.symm hne)] at hSets
      obtain rfl := (List.mem_replicate.mp (List.mem_of_getElem? hSets)).2
      rw [(List.mem_replicate.mp (List.mem_of_getElem? hset)).2] at h
      exact hempty tag' h
    subst hPP
    have hrow : Sets = onlySet N i tag := by
      rw [onlyAt, List.getElem?_set_self' ] at hSets
      obtain ⟨_, _, hrow⟩ := Option.map_eq_some_iff.mp hSets
      exact hrow.symm
    subst hrow
    have hi : i' = i := by
      by_contra hne
      rw [onlySet, List.getElem?_set_ne (Ne.symm hne)] at hset
      rw [(List.mem_replicate.mp (List.mem_of_getElem? hset)).2] at h
      exact hempty tag' h
    subst hi
    rw [onlySet, List.getElem?_set_self'] at hset
    obtain ⟨_, _, hset⟩ := Option.map_eq_some_iff.mp hset
    have heq : setAt (onlyAt points N PP' i' tag) i' PP' = ⟨[tag], false⟩ := hset.symm
    rw [heq, ImplicitSet.mem_of_positive rfl] at h
    exact ⟨rfl, rfl, List.mem_singleton.mp h⟩

/-- The results respect the enlargement to a map if and only if none of its sets is negated. -/
theorem respects_iff (T : CacheTraits) (R : AgeRuns) (U' : UCBMap T.nSets) :
    Respects T R U' ↔ ∀ Sets ∈ U'.perPP, ∀ s ∈ Sets, s.isUniverse = false := by
  refine ⟨fun h Sets hSets s hs => ?_, respects_of_positive⟩
  by_contra hneg
  rw [Bool.not_eq_false] at hneg
  obtain ⟨PP, hPP⟩ := List.mem_iff_getElem?.mp hSets
  obtain ⟨i, hi⟩ := List.mem_iff_getElem?.mp hs
  have hPPlt := (List.getElem?_eq_some_iff.mp hPP).choose
  have hlt : i < T.nSets := by
    rw [← U'.length_eq Sets hSets]
    exact (List.getElem?_eq_some_iff.mp hi).choose
  -- a tag that is stored nowhere is a member of the negated set
  obtain ⟨tag, htag⟩ := Infinite.exists_notMem_finset
    (U'.perPP.flatten.flatMap ImplicitSet.elements).toFinset
  have hstored : ∀ Sets ∈ U'.perPP, ∀ s ∈ Sets, tag ∉ s.elements := by
    intro Sets hSets s hs hmem
    apply htag
    rw [List.mem_toFinset, List.mem_flatMap]
    exact ⟨s, List.mem_flatten.mpr ⟨Sets, hSets, hs⟩, hmem⟩
  let U := UCBMap.only U'.perPP.length T.nSets PP i tag
  have hU : U.EnlargedTo U' := by
    refine ⟨by simp [U, UCBMap.only, onlyAt], fun PP' i' tag' hmem => ?_⟩
    obtain ⟨rfl, rfl, rfl⟩ := mem_setAt_onlyAt hmem
    rw [setAt_of_getElem? hPP hi, ImplicitSet.mem_of_negated hneg]
    exact hstored Sets hSets s hs
  obtain ⟨Result, Result', hresult, hresult', hsub⟩ := (h U hU).2.1
  obtain ⟨_, hspec, -, hmem⟩ := computeUCBsSetWise_spec U.length_eq
  obtain ⟨_, hspec', -, hmem'⟩ := computeUCBsSetWise_spec U'.length_eq
  rw [hresult] at hspec
  cases hspec
  rw [hresult'] at hspec'
  cases hspec'
  have hcollected : Collected Result i tag := by
    rw [hmem]
    refine ⟨hlt, onlySet T.nSets i tag, ?_, ⟨[tag], false⟩, ?_, List.mem_singleton_self tag⟩
    · exact List.mem_of_getElem? (List.getElem?_set_self (by simpa using hPPlt))
    · exact List.getElem?_set_self (by simpa using hlt)
  obtain ⟨_, Sets', hSets', s', hs', hin⟩ := (hmem' i tag).mp (hsub i tag hcollected)
  exact hstored Sets' hSets' s' (List.mem_of_getElem? hs') hin

end Monotone

section Example

/-- One cache set with two ways. -/
def oneSet : CacheTraits := ⟨16, 2, 1, false, false, 1, 5⟩

/-- The block 5 is accessed right before and right after the only program point. -/
def accessed : AgeRuns := ⟨fun _ _ => .update .start 0 5 2, fun _ _ => .update .start 0 5 2⟩

/-- What an unknown address makes of an empty may cache. -/
def unknownAccess : Except Fault (LruMinAgeAbstractCache × Option UpdateReport) :=
  LruMinAgeAbstractCache.potentialUpdate oneSet (.new oneSet true) .unknown false

/-- All blocks are useful after an access to an unknown address. They cost less than the
block 5 alone, and this block is not collected any more. -/
theorem not_respects_universe :
    unknownAccess = .ok (⟨[], 0⟩, none) ∧
    computeCommonElements oneSet [⟨[], 0⟩] [⟨[], 0⟩] = .ok [⟨[], true⟩] ∧
    ∃ U U' : UCBMap oneSet.nSets, U.perPP = [[⟨[5], false⟩]] ∧ U'.perPP = [[⟨[], true⟩]] ∧
      U.EnlargedTo U' ∧ runResilienceAnalysis oneSet accessed U.perPP [2] 1 = .ok 1 ∧
      runResilienceAnalysis oneSet accessed U'.perPP [2] 1 = .ok 0 ∧
      computeUCBs oneSet.nSets U.perPP = .ok ⟨[5], false⟩ ∧
      computeUCBs oneSet.nSets U'.perPP = .ok ⟨[], false⟩ ∧ ¬ Respects oneSet accessed U' := by
  let U : UCBMap oneSet.nSets :=
    ⟨[[⟨[5], false⟩]], by decide, by decide, by decide⟩
  let U' : UCBMap oneSet.nSets :=
    ⟨[[⟨[], true⟩]], by decide, by decide, by decide⟩
  have hcrpd : runResilienceAnalysis oneSet accessed U.perPP [2] 1 = .ok 1 := by decide
  have hcrpd' : runResilienceAnalysis oneSet accessed U'.perPP [2] 1 = .ok 0 := by decide
  have hU : U.EnlargedTo U' := by
    refine ⟨rfl, fun PP i tag htag => ?_⟩
    have hset : setAt U'.perPP i PP = ⟨[], true⟩ ∨ setAt U.perPP i PP = ⟨[], false⟩ := by
      cases PP with
      | zero =>
        cases i with
        | zero => exact .inl rfl
        | succ i => exact .inr rfl
      | succ PP => exact .inr rfl
    rcases hset with hset | hset
    · rw [hset, ImplicitSet.mem_of_negated rfl]
      exact List.not_mem_nil
    · rw [hset] at htag
      simp [ImplicitSet.mem_iff] at htag
  refine ⟨by decide +kernel, by decide, U, U', rfl, rfl, hU, hcrpd, hcrpd', by decide, by decide,
    fun h => ?_⟩
  obtain ⟨crpd, crpd', hok, hok', hle⟩ := (h U hU).1 [2] 1 rfl (by decide)
  rw [hcrpd] at hok
  rw [hcrpd'] at hok'
  cases hok
  cases hok'
  exact absurd hle (by decide)

end Example

end CacheRelatedPreemptionDelay

end Llvmta
