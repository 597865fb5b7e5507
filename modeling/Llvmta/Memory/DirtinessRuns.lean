import Llvmta.Memory.DirtinessSoundness

/-!
# Runs of the dirtiness analysis

A run of updates, potential updates and joins describes write-back, write-allocate
sets. An operation fails only when the may analysis reports an eviction while lines
without an entry may be dirty, which the invariant `Bounded` excludes.
-/

namespace Llvmta

open Checked Lru DirtinessClassification

namespace DirtinessAnalysis

variable {T : CacheTraits}

/-! ## Results exist -/

theorem incorporate_ok {d : DirtinessAnalysis} {mustTags mayTags : List ℕ}
    {unknowns introduced : Bool}
    (h : mayTags ≠ [] → (d.implicitDirty && !unknowns) = false) :
    ∃ d', d.incorporateMustMayUpdates T (some (.lruMaxAge mustTags))
      (some (.lruMinAge mayTags unknowns introduced)) = .ok d' := by
  unfold incorporateMustMayUpdates
  simp only [mayEvicted, mustEvicted, ok_bind]
  apply dropEvicted_ok
  intro hne
  cases unknowns with
  | true => rfl
  | false => simpa using h hne

theorem existsDirtyVictim_ok {d : DirtinessAnalysis} {K : Set (CacheSet ℕ T.associativity)}
    (h : d.must.Describes T K) : ∃ b, d.existsDirtyVictim T = .ok b := by
  unfold existsDirtyVictim
  split_ifs
  · exact ⟨true, rfl⟩
  · exact findDirtyVictim_ok h d.dirtiness.entries

theorem finishAccess_ok {d : DirtinessAnalysis} {K : Set (CacheSet ℕ T.associativity)}
    {must : LruMaxAgeAbstractCache} {may : LruMinAgeAbstractCache} {mustTags mayTags : List ℕ}
    {unknowns introduced : Bool} (hmust : must.Describes T K)
    (h : mayTags ≠ [] → (d.implicitDirty && !unknowns) = false) :
    ∃ d' b, d.finishAccess T (must, some (.lruMaxAge mustTags))
        (may, some (.lruMinAge mayTags unknowns introduced)) = .ok (d', b) ∧
      d'.may = may ∧ d'.implicitDirty = (d.implicitDirty && !unknowns) := by
  obtain ⟨b, hb⟩ := existsDirtyVictim_ok (d := { d with must, may }) hmust
  obtain ⟨d', hd⟩ : ∃ d', incorporateMustMayUpdates T { d with must, may }
      (some (.lruMaxAge mustTags)) (some (.lruMinAge mayTags unknowns introduced)) = .ok d' :=
    incorporate_ok h
  obtain ⟨_, hmay, himplicit, _⟩ := incorporate_spec hd
  refine ⟨d', b, ?_, hmay, himplicit⟩
  simp only [finishAccess, hb, hd, ok_bind]

/-- When the bound of the unknown lines reaches the associativity, the last of them
has been evicted. -/
theorem evicted_of_nextAgeOfImplicitTags {n a : ℕ} (hn : n < T.associativity)
    (hnext : LruMinAgeAbstractCache.nextAgeOfImplicitTags T a n = T.associativity) : n ≤ a := by
  unfold LruMinAgeAbstractCache.nextAgeOfImplicitTags at hnext
  split_ifs at hnext with h
  · exact h.1
  · omega

theorem update_ok (hA0 : 0 < T.associativity)
    {d : DirtinessAnalysis} {K : Set (WritebackSet ℕ T.associativity)} (h : d.Describes T K)
    (hb : d.Bounded T) {tag : ℕ} {load_store : AccessType} {wantReport : Bool}
    {assumption : Classification}
    (hop : LruMaxAgeAbstractCache.assumesHit T assumption = true → ∀ c ∈ K, tag ∈ c.set) :
    ∃ d' report, d.update T tag load_store wantReport assumption = .ok (d', report) ∧
      d'.Bounded T := by
  obtain ⟨hmustEq, hmayEq, himplicitEq⟩ := storeTo_frame d load_store tag
  have hlegal : LruMaxAgeAbstractCache.assumesHit T assumption = true →
      ∀ c ∈ WritebackSet.set '' K, tag ∈ c := by
    rintro hhit _ ⟨c, hc, rfl⟩
    exact hop hhit c hc
  obtain ⟨must, mustTags, hmu, hmust, _⟩ := h.must.update hA0 true hlegal
  obtain ⟨may, mayTags, hma, hmay, hevicted⟩ :=
    LruMinAgeAbstractCache.update_spec h.may.1 tag true assumption
  generalize hunknowns : decide (d.may.ageOfImplicitTags ≤ d.may.getMinAge tag ∧
    d.may.ageOfImplicitTags < T.associativity ∧ may.ageOfImplicitTags = T.associativity) =
    unknowns at hma
  -- at the bound of the associativity no line without an entry is dirty
  have hlast : may.ageOfImplicitTags = T.associativity → (d.implicitDirty && !unknowns) = false := by
    intro hways
    cases himplicit : d.implicitDirty with
    | false => rfl
    | true =>
      have hlt := hb himplicit
      have hle := evicted_of_nextAgeOfImplicitTags hlt (hmay.implicit_eq.symm.trans hways)
      rw [← hunknowns, decide_eq_true ⟨hle, hlt, hways⟩]
      rfl
  have hnone : mayTags ≠ [] → (d.implicitDirty && !unknowns) = false := by
    intro hne
    obtain ⟨v, hv⟩ := List.exists_mem_of_ne_nil mayTags hne
    exact hlast (hevicted v hv).2
  obtain ⟨d', b, hfinish, hmay', himplicit'⟩ : ∃ d' b,
      ((d.track tag).storeTo load_store tag).1.finishAccess T (must, some (.lruMaxAge mustTags))
        (may, some (.lruMinAge mayTags unknowns false)) = .ok (d', b) ∧ d'.may = may ∧
      d'.implicitDirty = (((d.track tag).storeTo load_store tag).1.implicitDirty && !unknowns) :=
    finishAccess_ok hmust (himplicitEq ▸ hnone)
  refine ⟨d', reportOf wantReport b ((d.track tag).storeTo load_store tag).2, ?_, fun hdirty => ?_⟩
  · unfold update
    simp only [hmustEq, hmayEq, hmu, hma, ok_bind]
    exact bind_eq_ok.mpr ⟨(d', b), hfinish, rfl⟩
  · rw [himplicit', himplicitEq] at hdirty
    rw [hmay']
    apply lt_of_le_of_ne hmay.wellFormed.implicit_le
    intro hways
    rw [hlast hways] at hdirty
    cases hdirty

theorem touchInterval_ok (h : 1 < T.lineSize * T.nSets) (hA0 : 0 < T.associativity)
    {d : DirtinessAnalysis} {itv : AddressInterval} {load_store : AccessType} (hb : d.Bounded T)
    (htop : maxWorthwhileTags < toUnsigned (getTag T itv.upper - getTag T itv.lower + 1) →
      d.may.ageOfImplicitTags = 0) :
    ∃ d' dfs, d.touchInterval T itv load_store = .ok (d', dfs) ∧ d'.Bounded T := by
  unfold touchInterval
  dsimp only
  split_ifs with hlarge
  · refine ⟨(d.storeAnywhere load_store).1, (d.storeAnywhere load_store).2, rfl, fun _ => ?_⟩
    have hmay : (d.storeAnywhere load_store).1.may = d.may := by cases load_store <;> rfl
    rw [hmay, htop hlarge]
    exact hA0
  · rw [touchTags, if_neg (LruMinAgeAbstractCache.getTag_ne_last h itv)]
    have hnodup : (List.range' (getTag T itv.lower)
        (getTag T itv.upper + 1 - getTag T itv.lower)).Nodup := List.nodup_range'
    refine ⟨_, _, rfl, fun hdirty => ?_⟩
    obtain ⟨_, hmay, himplicit, _⟩ := touchTags_spec hnodup d false
    rw [hmay]
    exact hb (himplicit ▸ hdirty)

theorem potentialUpdate_ok (hA0 : 0 < T.associativity) (h1 : 1 < T.lineSize * T.nSets)
    {d : DirtinessAnalysis} {K : Set (WritebackSet ℕ T.associativity)} (h : d.Describes T K)
    (hb : d.Bounded T) {itv : AddressInterval} {load_store : AccessType} {wantReport : Bool} :
    ∃ d' report, d.potentialUpdate T itv load_store wantReport = .ok (d', report) ∧
      d'.Bounded T := by
  obtain ⟨must, mustTags, hmu, hmust, _⟩ := h.must.potentialUpdate true
  obtain ⟨may, mayReport, hma⟩ := LruMinAgeAbstractCache.potentialUpdate_ok h.may.1 itv true
    (LruMinAgeAbstractCache.getTag_ne_last h1 itv)
  obtain ⟨introduced, rfl⟩ := LruMinAgeAbstractCache.potentialUpdate_report hma
  obtain ⟨hage, htop⟩ := LruMinAgeAbstractCache.implicit_of_potentialUpdate hma
  obtain ⟨d₁, b, hfinish, hmay₁, himplicit₁⟩ : ∃ d₁ b,
      d.finishAccess T (must, some (.lruMaxAge mustTags))
        (may, some (.lruMinAge [] false introduced)) = .ok (d₁, b) ∧ d₁.may = may ∧
      d₁.implicitDirty = (d.implicitDirty && !false) :=
    finishAccess_ok hmust fun hne => absurd rfl hne
  have hb₁ : d₁.Bounded T := by
    intro hdirty
    rw [himplicit₁, Bool.not_false, Bool.and_true] at hdirty
    rw [hmay₁]
    exact hage.trans_lt (hb hdirty)
  obtain ⟨d₂, dfs, hmark, hb₂⟩ : ∃ d₂ dfs,
      d₁.touchInterval T itv load_store = .ok (d₂, dfs) ∧ d₂.Bounded T :=
    touchInterval_ok h1 hA0 hb₁ fun hlarge => hmay₁ ▸ htop hlarge
  refine ⟨d₂, reportOf wantReport b dfs, ?_, hb₂⟩
  unfold potentialUpdate
  rw [hmu, ok_bind, hma, ok_bind]
  exact bind_eq_ok.mpr ⟨(d₁, b), hfinish, bind_eq_ok.mpr ⟨(d₂, dfs), hmark, rfl⟩⟩

theorem join_ok {d y : DirtinessAnalysis} {K L : Set (WritebackSet ℕ T.associativity)}
    (hd : d.Describes T K) (hy : y.Describes T L) (hdb : d.Bounded T) (hyb : y.Bounded T) :
    ∃ u, d.join T y = .ok u ∧ u.Bounded T := by
  obtain ⟨must, hmust, _⟩ := LruMaxAgeAbstractCache.describes_join d.must y.must _ _ hd.must hy.must
  obtain ⟨may, hmay, _, hage, _, _⟩ := LruMinAgeAbstractCache.join_spec hd.may.1 hy.may.1
  have hmust : LruMaxAgeAbstractCache.join T d.must y.must = .ok must := hmust
  unfold join
  simp only [hmust, hmay, ok_bind]
  refine ⟨_, rfl, fun hdirty => ?_⟩
  have hdirty : (d.implicitDirty || y.implicitDirty) = true := hdirty
  change may.ageOfImplicitTags < _
  rw [hage]
  rcases Bool.or_eq_true_iff.mp hdirty with hdirty | hdirty
  · exact (min_le_left _ _).trans_lt (hdb hdirty)
  · exact (min_le_right _ _).trans_lt (hyb hdirty)

/-! ## Runs -/

inductive DirtyOp where
  | update (tag : ℕ) (load_store : AccessType) (wantReport : Bool) (assumption : Classification)
  | potentialUpdate (itv : AddressInterval) (load_store : AccessType) (wantReport : Bool)
  deriving DecidableEq, Repr

def perform (T : CacheTraits) : DirtyOp → DirtinessAnalysis →
    Except Fault (DirtinessAnalysis × Option UpdateReport)
  | .update tag load_store wantReport assumption, d =>
    d.update T tag load_store wantReport assumption
  | .potentialUpdate itv load_store wantReport, d => d.potentialUpdate T itv load_store wantReport

/-- What an operation does to the set `index`. -/
def effect (T : CacheTraits) (index : ℕ) : DirtyOp → WritebackSet ℕ T.associativity →
    WritebackSet ℕ T.associativity → Prop
  | .update tag load_store _ _, c, c' => c' = c.access (isStore load_store) tag
  | .potentialUpdate itv load_store _, c, c' => accessSome T index itv load_store c c'

def DirtyOp.wantReport : DirtyOp → Bool
  | .update _ _ wantReport _ => wantReport
  | .potentialUpdate _ _ wantReport => wantReport

/-- A state to start from, and the sets it describes. -/
structure Start (T : CacheTraits) where
  state : DirtinessAnalysis
  sets : Set (WritebackSet ℕ T.associativity)
  describes : state.Describes T sets

/-- The sets that the initial state of the analyser stands for. -/
def initialSets (T : CacheTraits) (assumeCleanCache assumeAnEmptyCache : Bool) :
    Set (WritebackSet ℕ T.associativity) :=
  {c | (assumeAnEmptyCache = true → c = .empty) ∧ (assumeCleanCache = true → c.dirty = ∅)}

theorem describes_new (T : CacheTraits) (assumeCleanCache assumeAnEmptyCache : Bool) :
    (new T assumeCleanCache assumeAnEmptyCache).Describes T
      (initialSets T assumeCleanCache assumeAnEmptyCache) := by
  have hne : (WritebackSet.set '' initialSets T assumeCleanCache assumeAnEmptyCache).Nonempty :=
    ⟨_, .empty, ⟨fun _ => rfl, fun _ => rfl⟩, rfl⟩
  have hnone (t : ℕ) : (new T assumeCleanCache assumeAnEmptyCache).dirtiness.find? t = none := rfl
  refine ⟨?_, ?_, ⟨fun t dcl ht => ?_, fun t ht => ?_⟩, fun c hc => ⟨fun t ht => ?_,
    fun t ht => ?_, fun t hdirty _ => ?_⟩⟩
  · apply (LruMaxAgeAbstractCache.describes_new T assumeAnEmptyCache).mono hne
    rintro _ ⟨c, hc, rfl⟩
    cases assumeAnEmptyCache with
    | true => exact congrArg WritebackSet.set (hc.1 rfl)
    | false => exact Set.mem_univ _
  · obtain ⟨hw, hK⟩ := LruMinAgeAbstractCache.describes_new (T := T) 0 assumeAnEmptyCache
    refine ⟨hw, ?_⟩
    rintro _ ⟨c, hc, rfl⟩
    apply hK
    cases assumeAnEmptyCache with
    | true => exact congrArg WritebackSet.set (hc.1 rfl)
    | false => exact Set.mem_univ _
  · exact absurd ((hnone t).symm.trans ht) (by simp)
  · exact absurd ((hnone t).symm.trans ht) (by simp)
  · exact absurd ((hnone t).symm.trans ht) (by simp)
  · exact absurd ((hnone t).symm.trans ht) (by simp)
  · cases assumeCleanCache with
    | true =>
      rw [hc.2 rfl] at hdirty
      exact absurd hdirty (Finset.notMem_empty t)
    | false =>
      refine ⟨rfl, .inr ?_⟩
      cases assumeAnEmptyCache with
      | true =>
        rw [hc.1 rfl] at hdirty
        exact absurd hdirty (Finset.notMem_empty t)
      | false => exact Nat.zero_le _

/-- The dirtiness analysis of the cache set `index` from the given states. -/
def analysis (T : CacheTraits) (index : ℕ) {ι : Type*} (init : ι → Start T) :
    Collecting.Analysis ι DirtyOp DirtinessAnalysis (WritebackSet ℕ T.associativity) Fault where
  start i := (init i).state
  step op d := (perform T op d).map Prod.fst
  join := join T
  described i := (init i).sets
  concrete := effect T index

/-- Hits are assumed only for tags that really are cached. -/
def Legal (T : CacheTraits) : DirtyOp → DirtinessAnalysis →
    Set (WritebackSet ℕ T.associativity) → Prop
  | .update tag _ _ assumption, _, K =>
    LruMaxAgeAbstractCache.assumesHit T assumption = true → ∀ c ∈ K, tag ∈ c.set
  | .potentialUpdate _ _ _, _, _ => True

/-- What one operation does to a state, and what it reports. -/
theorem describes_perform (hA0 : 0 < T.associativity) (hA : T.associativity < 256) {index : ℕ}
    {op : DirtyOp} {d d' : DirtinessAnalysis} {K : Set (WritebackSet ℕ T.associativity)}
    (h : d.Describes T K) (hop : Legal T op d K) {report : Option UpdateReport}
    (hd : perform T op d = .ok (d', report)) :
    d'.Describes T {c' | ∃ c ∈ K, effect T index op c c'} ∧
      ∀ c ∈ K, ∀ c', effect T index op c c' → ReportCovers report c c' := by
  cases op with
  | update tag load_store wantReport assumption =>
    obtain ⟨hdesc, hreport⟩ := describes_update hA0 hA h hop hd
    refine ⟨hdesc, ?_⟩
    rintro c hc _ rfl
    exact hreport c hc
  | potentialUpdate itv load_store wantReport => exact describes_potentialUpdate h index hd

/-- A wanted report is made. -/
theorem perform_report {op : DirtyOp} {d d' : DirtinessAnalysis} {report : Option UpdateReport}
    (hd : perform T op d = .ok (d', report)) :
    ∃ wbPossible dirtifyingStore, report = reportOf op.wantReport wbPossible dirtifyingStore := by
  cases op with
  | update tag load_store wantReport assumption =>
    obtain ⟨must, _, hd⟩ := bind_eq_ok.mp hd
    obtain ⟨may, _, hd⟩ := bind_eq_ok.mp hd
    obtain ⟨⟨d₁, wb⟩, _, hd⟩ := bind_eq_ok.mp hd
    cases hd
    exact ⟨_, _, rfl⟩
  | potentialUpdate itv load_store wantReport =>
    obtain ⟨must, _, hd⟩ := bind_eq_ok.mp hd
    obtain ⟨may, _, hd⟩ := bind_eq_ok.mp hd
    obtain ⟨⟨d₁, wb⟩, _, hd⟩ := bind_eq_ok.mp hd
    obtain ⟨⟨d₂, dfs⟩, _, hd⟩ := bind_eq_ok.mp hd
    cases hd
    exact ⟨_, _, rfl⟩

/-- A dirty line is recorded as such, or as unknown, or has no entry while lines
without one may be dirty. -/
def Remembers (d : DirtinessAnalysis) (tag : ℕ) : Prop :=
  (∃ dcl, d.dirtiness.find? tag = some dcl ∧ dcl ≠ dclClean) ∨
    d.implicitDirty = true ∧ d.dirtiness.find? tag ≠ some dclClean

theorem Follows.remembers {d : DirtinessAnalysis} {A : ℕ} {c : WritebackSet ℕ A}
    (h : d.Follows ∅ c) {t : ℕ} (ht : t ∈ c.dirty) : d.Remembers t := by
  cases hfind : d.dirtiness.find? t with
  | none => exact .inr ⟨(h.implicit t ht hfind).1, by rw [hfind]; simp⟩
  | some dcl =>
    refine .inl ⟨dcl, hfind, ?_⟩
    rintro rfl
    exact h.clean t hfind ht

section Runs

variable {ι : Type*} {init : ι → Start T} {index : ℕ}

theorem describes_run (hA0 : 0 < T.associativity) (hA : T.associativity < 256)
    (r : Collecting.Run ι DirtyOp) (hr : (analysis T index init).Every (Legal T) r) :
    ∀ s, (analysis T index init).eval r = .ok s →
      s.Describes T ((analysis T index init).collect r) := by
  have hstep (op : DirtyOp) (s s' : DirtinessAnalysis) (K : Set (WritebackSet ℕ T.associativity))
      (hs : s.Describes T K) (hop : Legal T op s K)
      (hs' : (analysis T index init).step op s = .ok s') :
      s'.Describes T ((analysis T index init).image op K) := by
    cases hperform : perform T op s with
    | error e => simp [analysis, hperform, Except.map] at hs'
    | ok result =>
      simp only [analysis, hperform, Except.map, Except.ok.injEq] at hs'
      subst hs'
      exact (describes_perform hA0 hA hs hop hperform).1
  exact Collecting.Analysis.Run.sound_of_every_ok (Describes T) (fun i => (init i).describes)
    hstep (fun s t u K L => describes_join) r hr

/-- No operation of a run fails. -/
theorem run_ok (hA0 : 0 < T.associativity) (hA : T.associativity < 256)
    (h1 : 1 < T.lineSize * T.nSets) (hinit : ∀ i, (init i).state.Bounded T)
    (r : Collecting.Run ι DirtyOp) (hr : (analysis T index init).Every (Legal T) r) :
    ∃ s, (analysis T index init).eval r = .ok s := by
  have hstep (op : DirtyOp) (s : DirtinessAnalysis) (K : Set (WritebackSet ℕ T.associativity))
      (hs : s.Describes T K ∧ s.Bounded T) (hop : Legal T op s K) :
      ∃ s', (analysis T index init).step op s = .ok s' ∧
        s'.Describes T ((analysis T index init).image op K) ∧ s'.Bounded T := by
    have hok : ∃ s' report, perform T op s = .ok (s', report) ∧ s'.Bounded T := by
      cases op with
      | update tag load_store wantReport assumption => exact update_ok hA0 hs.1 hs.2 hop
      | potentialUpdate itv load_store wantReport => exact potentialUpdate_ok hA0 h1 hs.1 hs.2
    obtain ⟨s', report, hperform, hb⟩ := hok
    refine ⟨s', ?_, (describes_perform hA0 hA hs.1 hop hperform).1, hb⟩
    simp only [analysis, hperform, Except.map]
  have hjoin (s t : DirtinessAnalysis) (K L : Set (WritebackSet ℕ T.associativity))
      (hs : s.Describes T K ∧ s.Bounded T) (ht : t.Describes T L ∧ t.Bounded T) :
      ∃ u, (analysis T index init).join s t = .ok u ∧ u.Describes T (K ∪ L) ∧ u.Bounded T := by
    obtain ⟨u, hu, hb⟩ := join_ok hs.1 ht.1 hs.2 ht.2
    exact ⟨u, hu, describes_join hs.1 ht.1 hu, hb⟩
  obtain ⟨s, hs, _⟩ := Collecting.Analysis.Run.sound (S := analysis T index init)
    (fun s K => s.Describes T K ∧ s.Bounded T) (fun i => ⟨(init i).describes, hinit i⟩)
    hstep hjoin r hr
  exact ⟨s, hs⟩

/-- In the result of a run, every dirty line of a described set is remembered, and the
report of the next operation foresees the write-back of a line and a line that turns
dirty. -/
theorem dirtinessRun_sound (hA0 : 1 ≤ T.associativity) (hA : T.associativity < 256)
    (r : Collecting.Run ι DirtyOp) (hr : (analysis T index init).Every (Legal T) r) :
    (1 < T.lineSize * T.nSets → (∀ i, (init i).state.Bounded T) →
      ∃ s, (analysis T index init).eval r = .ok s) ∧
    ∀ s, (analysis T index init).eval r = .ok s →
      ∀ c ∈ (analysis T index init).collect r, (∀ t ∈ c.dirty, s.Remembers t) ∧
        ∀ op, Legal T op s ((analysis T index init).collect r) → op.wantReport = true →
          ∀ s' report, perform T op s = .ok (s', report) → ∀ c', effect T index op c c' →
            ∃ wbPossible dirtifyingStore,
              report = some (.writeback wbPossible dirtifyingStore) ∧
              (WritebackSet.WritesBack c c' → wbPossible = true) ∧
              (WritebackSet.TurnsDirty c c' → dirtifyingStore = true) := by
  refine ⟨fun h1 hinit => run_ok hA0 hA h1 hinit r hr, fun s hs c hc => ?_⟩
  have hdesc := describes_run hA0 hA r hr s hs
  refine ⟨fun t ht => (hdesc.follows c hc).remembers ht, ?_⟩
  intro op hop hwant s' report hperform c' hc'
  obtain ⟨_, hcovers⟩ := describes_perform hA0 hA hdesc hop hperform
  obtain ⟨wb, dfs, hreport⟩ := perform_report hperform
  have hreport : report = some (.writeback wb dfs) := by rw [hreport, hwant]; rfl
  exact ⟨wb, dfs, hreport, hcovers c hc c' hc' wb dfs hreport⟩

end Runs

/-- A store, loads of an unknown line and a hit, from the initial state. -/
theorem dirtinessRun_sound_fourWays :
    let T : CacheTraits := ⟨16, 4, 2, true, true, 1, 5⟩
    let init : Bool → Start T := fun clean => ⟨_, _, describes_new T clean false⟩
    let stored : Collecting.Run Bool DirtyOp := .step (.start true) (.update 7 .store true .clUnknown)
    let r : Collecting.Run Bool DirtyOp :=
      .step (.join (.step stored (.update 7 .load true .clHit)) (.start false))
        (.potentialUpdate ⟨16, 100, by decide, by decide⟩ .store true)
    ∃ s, (analysis T 1 init).eval r = .ok s ∧
      ∀ c ∈ (analysis T 1 init).collect r, (∀ t ∈ c.dirty, s.Remembers t) ∧
        ∀ op, Legal T op s ((analysis T 1 init).collect r) → op.wantReport = true →
          ∀ s' report, perform T op s = .ok (s', report) → ∀ c', effect T 1 op c c' →
            ∃ wbPossible dirtifyingStore,
              report = some (.writeback wbPossible dirtifyingStore) ∧
              (WritebackSet.WritesBack c c' → wbPossible = true) ∧
              (WritebackSet.TurnsDirty c c' → dirtifyingStore = true) := by
  intro T init stored r
  have hr : (analysis T 1 init).Every (Legal T) r := by
    refine ⟨⟨⟨⟨trivial, fun _ _ h => absurd h (by decide)⟩, ?_⟩, trivial⟩, fun _ _ => trivial⟩
    rintro s _ _ _ ⟨c, _, rfl⟩
    exact c.set.mem_access_self 7 (by decide)
  have hinit (i : Bool) : (init i).state.Bounded T := fun _ => (by decide : 0 < 4)
  obtain ⟨hok, hsound⟩ := dirtinessRun_sound (by decide) (by decide) r hr
  obtain ⟨s, hs⟩ := hok (by decide) hinit
  exact ⟨s, hs, hsound s hs⟩

/-! ## 256 ways

The position 255 of such a set has no successor in `WayType`, and the must analysis
holds no line of it. So no eviction is reported, and a dirty line stays recorded as
dirty when it has left the set.
-/

/-- The must analysis holds no line, and no line without an entry is dirty. -/
structure Blind (T : CacheTraits) (d : DirtinessAnalysis) : Prop where
  must : LruMaxAgeAbstractCache.Holds T.associativity d.must []
  may : LruMinAgeAbstractCache.WellFormed T d.may
  implicit : d.implicitDirty = false

theorem blind_new (T : CacheTraits) (assumeAnEmptyCache : Bool) :
    Blind T (new T true assumeAnEmptyCache) :=
  ⟨LruMaxAgeAbstractCache.holds_new assumeAnEmptyCache, LruMinAgeAbstractCache.wellFormed_new assumeAnEmptyCache,
    rfl⟩

/-- An access changes no entry but its own. -/
theorem Blind.update (hA : 256 ≤ T.associativity) {d : DirtinessAnalysis} (h : Blind T d)
    (tag : ℕ) (load_store : AccessType) (assumption : Classification) :
    ∃ d' wbPossible, d.update T tag load_store true assumption =
        .ok (d', some (.writeback wbPossible ((d.track tag).storeTo load_store tag).2)) ∧
      Blind T d' ∧ d'.dirtiness = ((d.track tag).storeTo load_store tag).1.dirtiness := by
  obtain ⟨hmustEq, hmayEq, himplicitEq⟩ := storeTo_frame d load_store tag
  obtain ⟨must, hmu, hmust⟩ := LruMaxAgeAbstractCache.update_wide h.must hA tag true assumption
  obtain ⟨may, mayTags, hma, hmay, hevicted⟩ :=
    LruMinAgeAbstractCache.update_spec h.may tag true assumption
  have hlt := hmay.wellFormed.implicit_lt
  have hnil : mayTags = [] := by
    apply List.eq_nil_iff_forall_not_mem.mpr
    intro t ht
    have := (hevicted t ht).2
    omega
  have hunknowns : decide (d.may.ageOfImplicitTags ≤ d.may.getMinAge tag ∧
      d.may.ageOfImplicitTags < T.associativity ∧ may.ageOfImplicitTags = T.associativity) =
      false := decide_eq_false fun h => by omega
  rw [hnil, hunknowns] at hma
  have hdesc : must.Describes T Set.univ :=
    ⟨⟨CacheSet.empty, Set.mem_univ _⟩, [], hmust, LruMaxAgeAbstractCache.wellFormed_nil,
      fun _ _ e he => absurd he List.not_mem_nil⟩
  obtain ⟨wb, hwb⟩ := existsDirtyVictim_ok
    (d := { ((d.track tag).storeTo load_store tag).1 with must, may }) hdesc
  refine ⟨{ ((d.track tag).storeTo load_store tag).1 with must, may }, wb, ?_,
    ⟨hmust, hmay.wellFormed, himplicitEq.trans h.implicit⟩, rfl⟩
  unfold DirtinessAnalysis.update finishAccess
  simp only [hmustEq, hmayEq, hmu, hma, ok_bind, hwb]
  -- nothing is reported, so the entries are as the access left them
  rfl

/-- Loads of the given lines. -/
def loads {ι : Type*} (r : Collecting.Run ι DirtyOp) (tags : List ℕ) : Collecting.Run ι DirtyOp :=
  tags.foldl (fun r tag => .step r (.update tag .load true .clUnknown)) r

/-- Loads withdraw no record of a dirty line. -/
theorem Blind.loads (hA : 256 ≤ T.associativity) {index : ℕ} {ι : Type*} {init : ι → Start T}
    {r : Collecting.Run ι DirtyOp} {d : DirtinessAnalysis} (h : Blind T d)
    (hd : (analysis T index init).eval r = .ok d) (tags : List ℕ) :
    ∃ d', (analysis T index init).eval (loads r tags) = .ok d' ∧ Blind T d' ∧
      ∀ v, d.dirtiness.find? v = some dclDirty → d'.dirtiness.find? v = some dclDirty := by
  induction tags generalizing r d with
  | nil => exact ⟨d, hd, h, fun v hv => hv⟩
  | cons tag tags ih =>
    obtain ⟨d₁, wb, hupdate, h₁, hentries⟩ := h.update hA tag .load .clUnknown
    have hd₁ : (analysis T index init).eval (.step r (.update tag .load true .clUnknown)) =
        .ok d₁ := by
      rw [Collecting.Analysis.eval_step_ok hd]
      simp only [analysis, perform, hupdate, Except.map]
    obtain ⟨d', hd', h', hkept⟩ := ih h₁ hd₁
    refine ⟨d', hd', h', fun v hv => hkept v ?_⟩
    rw [hentries, find?_storeTo]
    split_ifs with htag hstore
    · rfl
    · rw [← htag, classificationAt_some hv]
    · exact hv

theorem mem_collect_loads {index : ℕ} {ι : Type*} {init : ι → Start T}
    {r : Collecting.Run ι DirtyOp} {c : WritebackSet ℕ T.associativity}
    (hc : c ∈ (analysis T index init).collect r) (tags : List ℕ) :
    tags.foldl (fun c tag => c.access false tag) c ∈
      (analysis T index init).collect (loads r tags) := by
  induction tags generalizing r c with
  | nil => exact hc
  | cons tag tags ih => exact ih ⟨c, hc, rfl⟩

theorem set_foldl_access {A : ℕ} (c : WritebackSet ℕ A) (tags : List ℕ) :
    (tags.foldl (fun c tag => c.access false tag) c).set = tags.foldl CacheSet.access c.set := by
  induction tags generalizing c with
  | nil => rfl
  | cons tag tags ih => exact ih (c.access false tag)

/-- A store turns a line dirty when as many other lines as there are ways have been
loaded since it was last. -/
theorem turnsDirty_of_evicted {A : ℕ} (hA : 0 < A) {c : WritebackSet ℕ A} {tags : List ℕ}
    (hnodup : tags.Nodup) (hnew : ∀ t ∈ tags, t ∉ c.set) (hlen : A ≤ tags.length) {v : ℕ}
    (hv : v ∉ tags) :
    WritebackSet.TurnsDirty (tags.foldl (fun c tag => c.access false tag) c)
      ((tags.foldl (fun c tag => c.access false tag) c).access true v) := by
  refine ⟨v, ?_, fun hdirty => ?_⟩
  · apply WritebackSet.mem_dirty_access.mpr
    exact ⟨.inr ⟨rfl, rfl⟩, CacheSet.mem_access_self _ v hA⟩
  · have hset := WritebackSet.mem_of_dirty _ v hdirty
    rw [set_foldl_access] at hset
    exact CacheSet.notMem_foldl_access hnodup hnew hlen hv hset

/-- A line that is stored, evicted and stored again turns dirty twice. -/
theorem dirtifyingStore_missed :
    let T : CacheTraits := ⟨16, 256, 2, true, true, 1, 5⟩
    let init : Unit → Start T := fun _ => ⟨_, _, describes_new T true true⟩
    let r := loads (.step (.start ()) (.update 0 .store true .clUnknown)) (List.range' 1 256)
    ∃ s, (analysis T 1 init).eval r = .ok s ∧ ∃ c ∈ (analysis T 1 init).collect r,
      ∃ s' wbPossible, perform T (.update 0 .store true .clUnknown) s =
          .ok (s', some (.writeback wbPossible false)) ∧
        WritebackSet.TurnsDirty c (c.access true 0) := by
  intro T init r
  obtain ⟨d, _, hd, hblind, hentries⟩ :=
    (blind_new T true).update (by decide) 0 .store .clUnknown
  have hstart : (analysis T 1 init).eval (.step (.start ()) (.update 0 .store true .clUnknown)) =
      .ok d := by
    rw [Collecting.Analysis.eval_step_ok rfl]
    simp only [analysis, perform, init, hd, Except.map]
  have hdirty : d.dirtiness.find? 0 = some dclDirty := by
    rw [hentries, find?_storeTo, if_pos rfl]
    rfl
  obtain ⟨s, hs, hblind', hkept⟩ := hblind.loads (by decide) hstart (List.range' 1 256)
  obtain ⟨s', wb, hs', _, _⟩ := hblind'.update (by decide) 0 .store .clUnknown
  have hmissed : ((s.track 0).storeTo .store 0).2 = false := by
    apply decide_eq_false
    rw [classificationAt_track, classificationAt_some (hkept 0 hdirty)]
    exact not_not.mpr rfl
  rw [hmissed] at hs'
  have hc : WritebackSet.empty.access true 0 ∈ (analysis T 1 init).collect
      (.step (.start ()) (.update 0 .store true .clUnknown)) :=
    ⟨.empty, ⟨fun _ => rfl, fun _ => rfl⟩, rfl⟩
  refine ⟨s, hs, _, mem_collect_loads hc (List.range' 1 256), s', wb, hs', ?_⟩
  apply turnsDirty_of_evicted (by decide) List.nodup_range'
  · intro t ht hmem
    have hrange := List.mem_range'_1.mp ht
    have hzero := List.mem_singleton.mp hmem
    omega
  · exact (List.length_range').ge
  · intro hzero
    have hrange := List.mem_range'_1.mp hzero
    omega

end DirtinessAnalysis

end Llvmta
