import Llvmta.Memory.MultiScopePersistence
import Llvmta.Memory.SetWiseCountingSoundness
import Llvmta.Memory.SharedClassification

/-!
# Persistence in a cache shared with other cores

A path of a scope lists the accesses since the scope was entered, an access to a
known line being marked. `Sound` says what an analysis has to keep about such paths
so that `MultiScopePersistence` keeps it for every scope. Both counting analyses do,
and what they count, with the conflicts of the right set added, leaves a way for every
block.
-/

namespace Llvmta

open Checked Lru

variable {T : CacheTraits} {P : StaticAddressProvider} {mode : ArrayPersistenceAnaType}
  {index : ℕ}

/-- The tags accessed in a scope, and whether the line was known. -/
abbrev ScopePath := List (ℕ × Bool)

/-- The distinct tags of a path, whether the line was known or not. -/
def tagsOnPath (π : ScopePath) : List ℕ := π.map Prod.fst

/-! ## Set-wise counting -/

namespace SetWiseCountingPersistence

variable {s s' : SetWiseCountingPersistence}

/-- The state accounts for a path, unless it is top. -/
def Counts (T : CacheTraits) (P : StaticAddressProvider) (index : ℕ)
    (s : SetWiseCountingPersistence) (tags : List ℕ) : Prop :=
  s.top = false → s.Accounts T P index tags

theorem counts_nil (s : SetWiseCountingPersistence) : s.Counts T P index [] := fun _ =>
  Budget.covers_empty _ _

/-- Fewer tags are accounted for as well. -/
theorem Counts.mono {tags tags' : List ℕ} (h : s.Counts T P index tags)
    (hsub : ∀ t ∈ tags', t ∈ tags) : s.Counts T P index tags' := by
  intro htop
  apply Budget.Covers.mono (h htop) _ fun _ => le_rfl
  intro t ht
  obtain ⟨ht, hnew⟩ := Finset.mem_sdiff.mp ht
  exact Finset.mem_sdiff.mpr ⟨List.mem_toFinset.mpr (hsub t (List.mem_toFinset.mp ht)), hnew⟩

/-- An access to a known line of the set is counted. -/
theorem Shaped.update (hT : T.Geometry) (h : Shaped T P mode index s) {addr : AbstractAddress}
    (hprecise : addr.isPrecise = true) (hin : getindex T addr.interval.lower = index)
    (load_store : AccessType) {wantReport : Bool} (assumption : Classification)
    {report : Option UpdateReport}
    (hu : s.update T P mode addr load_store wantReport assumption = .ok (s', report)) :
    Shaped T P mode index s' ∧ s'.r = s.r ∧ ∀ tags, s.Counts T P index tags →
      s'.Counts T P index (getTag T addr.interval.lower :: tags) := by
  unfold SetWiseCountingPersistence.update at hu
  split_ifs at hu with htop
  · cases hu
    exact ⟨h, rfl, fun tags _ hnotTop => absurd (htop.symm.trans hnotTop) (by decide)⟩
  · obtain ⟨_, _, hu⟩ := bind_eq_ok.mp hu
    rw [Block.new_eq hT hprecise hin, ok_bind] at hu
    cases hu
    obtain ⟨hshaped, hr, _, hcovers⟩ := insertBlock_spec h (getTag T addr.interval.lower)
    refine ⟨hshaped, hr, fun tags htags hnotTop => hcovers hnotTop tags (htags ?_)⟩
    simpa using htop

/-- An access to an unknown line of the set is counted if the state is not top. -/
theorem Shaped.potentialUpdate (hT : T.Geometry) (hindex : index < T.nSets)
    (h : Shaped T P mode index s) {addr : AbstractAddress} (load_store : AccessType)
    {wantReport : Bool} {report : Option UpdateReport}
    (hu : s.potentialUpdate T P mode addr load_store wantReport = .ok (s', report)) :
    Shaped T P mode index s' ∧ s'.r = s.r ∧ ∀ tags, s.Counts T P index tags →
      s'.Counts T P index tags ∧
      ∀ t, MayTouch T P index addr t → s'.Counts T P index (t :: tags) := by
  have htopped {s' : SetWiseCountingPersistence} (htop : s'.top = true) (tags : List ℕ) :
      s'.Counts T P index tags := fun hnotTop => absurd (htop.symm.trans hnotTop) (by decide)
  unfold SetWiseCountingPersistence.potentialUpdate at hu
  split_ifs at hu with htop
  · cases hu
    exact ⟨h, rfl, fun tags _ => ⟨htopped htop tags, fun t _ => htopped htop _⟩⟩
  · split at hu
    · next arr harray =>
      obtain ⟨s₁, hcount, hu⟩ := bind_eq_ok.mp hu
      cases hu
      obtain ⟨_, bound, _, hcount', hshaped, hr, _, hcovers⟩ := countArray_spec hT hindex h arr
      obtain rfl := Except.ok.inj (hcount'.symm.trans hcount)
      refine ⟨hshaped, hr, fun tags htags => ⟨fun hnotTop => ?_, fun t ht hnotTop => ?_⟩⟩
      · exact (hcovers hnotTop tags (htags (by simpa using htop))).1
      · apply (hcovers hnotTop tags (htags (by simpa using htop))).2
        simpa only [MayTouch, harray] using ht
    · cases hu
      exact ⟨shaped_gotoTop h.r_index, rfl,
        fun tags _ => ⟨htopped rfl tags, fun t _ => htopped rfl _⟩⟩

/-- A join counts what either operand does. -/
theorem Shaped.join (hT : T.Geometry) (hindex : index < T.nSets) {x y u : SetWiseCountingPersistence}
    (hx : Shaped T P mode index x) (hy : Shaped T P mode index y)
    (hu : x.join T P mode y = .ok u) : Shaped T P mode index u ∧ u.r = x.r ∧
      ∀ tags, x.Counts T P index tags ∨ y.Counts T P index tags → u.Counts T P index tags := by
  obtain ⟨_, hu', hw, hr, hcovers⟩ := join_spec hT hindex hx hy
  obtain rfl := Except.ok.inj (hu'.symm.trans hu)
  refine ⟨hw.shaped, hr, fun tags htags hnotTop => ?_⟩
  obtain ⟨hxtop, hytop, haccounts⟩ := hcovers hnotTop
  exact haccounts tags (htags.imp (fun h => h hxtop) fun h => h hytop)

end SetWiseCountingPersistence

/-! ## Paths of a scope -/

/-- What an analysis keeps: `W` of its states, and `Q` of a state and the paths of the
scope that it describes. -/
structure PersistenceAnalysis.Sound {σ : Type} (A : PersistenceAnalysis σ) (T : CacheTraits)
    (P : StaticAddressProvider) (index : ℕ) (W : σ → Prop) (Q : σ → ScopePath → Prop) : Prop where
  new : W A.new ∧ Q A.new []
  update : ∀ s addr load_store assumption s' report, W s → addr.isPrecise = true →
    getindex T addr.interval.lower = index →
    A.update s addr load_store false assumption = .ok (s', report) →
    W s' ∧ ∀ π, Q s π → Q s' ((getTag T addr.interval.lower, true) :: π)
  potentialUpdate : ∀ s addr load_store s' report, W s →
    A.potentialUpdate s addr load_store false = .ok (s', report) →
    W s' ∧ ∀ π, Q s π → Q s' π ∧ ∀ t, MayTouch T P index addr t → Q s' ((t, false) :: π)
  join : ∀ x y u, W x → W y → A.join x y = .ok u → W u ∧ ∀ π, Q x π ∨ Q y π → Q u π

/-- Set-wise counting started with the default reference. -/
theorem setWise_sound (hT : T.Geometry) (hindex : index < T.nSets)
    (O : SetWiseCountingPersistence.SharedOptions) :
    (setWise T P mode O).Sound T P index
      (fun s => SetWiseCountingPersistence.Shaped T P mode index s ∧ s.r = 0)
      (fun s π => s.Counts T P index (tagsOnPath π)) where
  new := by
    refine ⟨⟨⟨.inl rfl, fun b hb => absurd hb (Finset.notMem_empty b), fun _ => rfl⟩, rfl⟩, ?_⟩
    exact SetWiseCountingPersistence.counts_nil _
  update s addr load_store assumption s' report hW hprecise hin hu := by
    obtain ⟨hshaped, hr, hcounts⟩ := hW.1.update hT hprecise hin load_store assumption hu
    exact ⟨⟨hshaped, hr.trans hW.2⟩, fun π hπ => hcounts _ hπ⟩
  potentialUpdate s addr load_store s' report hW hu := by
    obtain ⟨hshaped, hr, hcounts⟩ := hW.1.potentialUpdate hT hindex load_store hu
    exact ⟨⟨hshaped, hr.trans hW.2⟩, fun π hπ => hcounts _ hπ⟩
  join x y u hx hy hu := by
    obtain ⟨hshaped, hr, hcounts⟩ := hx.1.join hT hindex hy.1 hu
    exact ⟨⟨hshaped, hr.trans hx.2⟩, fun π hπ => hcounts _ hπ⟩

/-! ## Element-wise counting -/

namespace ElementWiseCountingPersistence

/-- Every tag is counted for with a reference into the set. -/
def Referenced (T : CacheTraits) (P : StaticAddressProvider) (mode : ArrayPersistenceAnaType)
    (index : ℕ) (e : ElementWiseCountingPersistence) : Prop :=
  ∀ t s, e.ele2conflicts.find? t = some s →
    SetWiseCountingPersistence.Shaped T P mode index s ∧ getindex T s.r = index

/-- The conflict set of a tag that was accessed accounts for the tag and what was accessed since. -/
def CountsSince (T : CacheTraits) (P : StaticAddressProvider) (index : ℕ)
    (e : ElementWiseCountingPersistence) (π : ScopePath) : Prop :=
  ∀ t, (t, true) ∈ π → ∃ s, e.ele2conflicts.find? t = some s ∧
    s.Counts T P index (t :: tagsOnPath (since π (t, true)))

end ElementWiseCountingPersistence

theorem fst_map_eq_ok {ε α β : Type} {x : Except ε (α × β)} {a : α} (h : Prod.fst <$> x = .ok a) :
    ∃ b, x = .ok (a, b) := by
  cases x with
  | error e => cases h
  | ok p =>
    cases h
    exact ⟨p.2, rfl⟩

open ElementWiseCountingPersistence in
theorem elementWise_update (hT : T.Geometry) {e e' : ElementWiseCountingPersistence}
    (hW : Referenced T P mode index e) {addr : AbstractAddress} (hprecise : addr.isPrecise = true)
    (hin : getindex T addr.interval.lower = index) {load_store : AccessType} {wantReport : Bool}
    (assumption : Classification) {report : Option UpdateReport}
    (hu : e.update T P mode addr load_store wantReport assumption = .ok (e', report)) :
    Referenced T P mode index e' ∧ ∀ π, CountsSince T P index e π →
      CountsSince T P index e' ((getTag T addr.interval.lower, true) :: π) := by
  obtain ⟨tag, htag, hu⟩ := bind_eq_ok.mp hu
  obtain ⟨entries, hentries, hu⟩ := bind_eq_ok.mp hu
  cases hu
  obtain rfl : getTag T addr.interval.lower = tag := by
    obtain ⟨_, _, htag⟩ := bind_eq_ok.mp htag
    exact Except.ok.inj htag
  have hfresh : SetWiseCountingPersistence.Shaped T P mode index (.new addr.interval.lower) :=
    ⟨.inr hin, fun b hb => absurd hb (Finset.notMem_empty b), fun _ => rfl⟩
  have hcases (t : ℕ) := OrderedMap.sequence_mapValues hentries t
  constructor
  · intro t s' hs'
    rcases hcases t with ⟨_, hnone⟩ | ⟨s, s'', hs, hf, hs''⟩
    · rw [hnone] at hs'
      cases hs'
    · obtain rfl : s'' = s' := Option.some.inj (hs''.symm.trans hs')
      obtain ⟨_, hf⟩ := fst_map_eq_ok hf
      rw [OrderedMap.find?_insert] at hs
      split_ifs at hs with ht
      · cases hs
        obtain ⟨hshaped, hr, _⟩ := hfresh.update hT hprecise hin load_store .clUnknown hf
        exact ⟨hshaped, (congrArg (getindex T) hr).trans hin⟩
      · obtain ⟨hold, hindex⟩ := hW t s hs
        obtain ⟨hshaped, hr, _⟩ := hold.update hT hprecise hin load_store .clUnknown hf
        exact ⟨hshaped, (congrArg (getindex T) hr).trans hindex⟩
  · intro π hπ t ht
    rcases hcases t with ⟨hnone, _⟩ | ⟨s, s', hs, hf, hs'⟩
    · rw [OrderedMap.find?_insert] at hnone
      split_ifs at hnone with htag
      rcases List.mem_cons.mp ht with heq | ht
      · exact absurd (congrArg Prod.fst heq).symm htag
      · obtain ⟨s, hs, _⟩ := hπ t ht
        rw [hs] at hnone
        cases hnone
    · refine ⟨s', hs', ?_⟩
      obtain ⟨_, hf⟩ := fst_map_eq_ok hf
      rw [OrderedMap.find?_insert] at hs
      split_ifs at hs with htag
      · cases hs
        obtain ⟨_, _, hcounts⟩ := hfresh.update hT hprecise hin load_store .clUnknown hf
        subst htag
        rw [since_cons_self]
        exact hcounts [] (SetWiseCountingPersistence.counts_nil _)
      · have hne : (getTag T addr.interval.lower, true) ≠ (t, true) := fun h =>
          htag (congrArg Prod.fst h)
        have ht := (List.mem_cons.mp ht).resolve_left (Ne.symm hne)
        obtain ⟨s₀, hs₀, hcounted⟩ := hπ t ht
        obtain rfl : s₀ = s := Option.some.inj (hs₀.symm.trans hs)
        obtain ⟨_, _, hcounts⟩ := (hW t s₀ hs).1.update hT hprecise hin load_store .clUnknown hf
        rw [since_cons_of_ne hne]
        apply (hcounts _ hcounted).mono
        intro u hu
        simp only [tagsOnPath, List.map_cons, List.mem_cons] at hu ⊢
        tauto

open ElementWiseCountingPersistence in
theorem elementWise_potentialUpdate (hT : T.Geometry) (hindex : index < T.nSets)
    {e e' : ElementWiseCountingPersistence} (hW : Referenced T P mode index e)
    {addr : AbstractAddress} {load_store : AccessType} {wantReport : Bool}
    {report : Option UpdateReport}
    (hu : e.potentialUpdate T P mode addr load_store wantReport = .ok (e', report)) :
    Referenced T P mode index e' ∧ ∀ π, CountsSince T P index e π → CountsSince T P index e' π ∧
      ∀ u, MayTouch T P index addr u → CountsSince T P index e' ((u, false) :: π) := by
  obtain ⟨entries, hentries, hu⟩ := bind_eq_ok.mp hu
  cases hu
  have hcases (t : ℕ) := OrderedMap.sequence_mapValues hentries t
  constructor
  · intro t s' hs'
    rcases hcases t with ⟨_, hnone⟩ | ⟨s, s'', hs, hf, hs''⟩
    · rw [hnone] at hs'
      cases hs'
    · obtain rfl : s'' = s' := Option.some.inj (hs''.symm.trans hs')
      obtain ⟨_, hf⟩ := fst_map_eq_ok hf
      obtain ⟨hold, hr'⟩ := hW t s hs
      obtain ⟨hshaped, hr, _⟩ := hold.potentialUpdate hT hindex load_store hf
      exact ⟨hshaped, (congrArg (getindex T) hr).trans hr'⟩
  · intro π hπ
    have hentry (t : ℕ) (ht : (t, true) ∈ π) : ∃ s', entries.find? t = some s' ∧
        s'.Counts T P index (t :: tagsOnPath (since π (t, true))) ∧
        ∀ u, MayTouch T P index addr u →
          s'.Counts T P index (u :: t :: tagsOnPath (since π (t, true))) := by
      obtain ⟨s, hs, hcounted⟩ := hπ t ht
      rcases hcases t with ⟨hnone, _⟩ | ⟨s₀, s', hs₀, hf, hs'⟩
      · have hnone : e.ele2conflicts.find? t = none := hnone
        rw [hs] at hnone
        cases hnone
      · obtain rfl : s = s₀ := Option.some.inj (hs.symm.trans hs₀)
        obtain ⟨_, hf⟩ := fst_map_eq_ok hf
        obtain ⟨_, _, hcounts⟩ := (hW t s hs).1.potentialUpdate hT hindex load_store hf
        exact ⟨s', hs', hcounts _ hcounted⟩
    refine ⟨fun t ht => ?_, fun u hu t ht => ?_⟩
    · obtain ⟨s', hs', hcounted, _⟩ := hentry t ht
      exact ⟨s', hs', hcounted⟩
    · have hne : (u, false) ≠ (t, true) := fun h => Bool.noConfusion (congrArg Prod.snd h)
      obtain ⟨s', hs', _, htouched⟩ := hentry t ((List.mem_cons.mp ht).resolve_left (Ne.symm hne))
      refine ⟨s', hs', ?_⟩
      rw [since_cons_of_ne hne]
      apply (htouched u hu).mono
      intro v hv
      simp only [tagsOnPath, List.map_cons, List.mem_cons] at hv ⊢
      tauto

open ElementWiseCountingPersistence in
theorem elementWise_join (hT : T.Geometry) (hindex : index < T.nSets)
    {x y u : ElementWiseCountingPersistence} (hx : Referenced T P mode index x)
    (hy : Referenced T P mode index y) (hu : x.join T P mode y = .ok u) :
    Referenced T P mode index u ∧
      ∀ π, CountsSince T P index x π ∨ CountsSince T P index y π → CountsSince T P index u π := by
  obtain ⟨entries, hentries, hu⟩ := bind_eq_ok.mp hu
  cases hu
  -- what a joined conflict set is made of
  have hcases (t : ℕ) : entries.find? t = none ∧ x.ele2conflicts.find? t = none ∧
        y.ele2conflicts.find? t = none ∨
      ∃ s, entries.find? t = some s ∧
        (SetWiseCountingPersistence.Shaped T P mode index s ∧ getindex T s.r = index) ∧
        (∀ s', x.ele2conflicts.find? t = some s' ∨ y.ele2conflicts.find? t = some s' →
          ∀ tags, s'.Counts T P index tags → s.Counts T P index tags) := by
    rcases OrderedMap.sequence_merge hentries t with ⟨hx, hy, hnone⟩ | ⟨s, hf, hs⟩
    · exact .inl ⟨hnone, hx, hy⟩
    · refine .inr ⟨s, hs, ?_⟩
      cases hsx : x.ele2conflicts.find? t with
      | none =>
        cases hsy : y.ele2conflicts.find? t with
        | none =>
          rw [hsx, hsy] at hf
          cases hf
        | some sy =>
          rw [hsx, hsy] at hf
          have hf : sy = s := Except.ok.inj hf
          rw [← hf]
          refine ⟨hy t sy hsy, ?_⟩
          rintro s' (h | h) tags htags
          · cases h
          · cases h
            exact htags
      | some sx =>
        cases hsy : y.ele2conflicts.find? t with
        | none =>
          rw [hsx, hsy] at hf
          have hf : sx = s := Except.ok.inj hf
          rw [← hf]
          refine ⟨hx t sx hsx, ?_⟩
          rintro s' (h | h) tags htags
          · cases h
            exact htags
          · cases h
        | some sy =>
          rw [hsx, hsy] at hf
          obtain ⟨hshaped, hr, hcounts⟩ := (hx t sx hsx).1.join hT hindex (hy t sy hsy).1 hf
          refine ⟨⟨hshaped, (congrArg (getindex T) hr).trans (hx t sx hsx).2⟩, ?_⟩
          rintro s' (h | h) tags htags
          · cases h
            exact hcounts tags (.inl htags)
          · cases h
            exact hcounts tags (.inr htags)
  constructor
  · intro t s hs
    rcases hcases t with ⟨hnone, _⟩ | ⟨s', hs', hreferenced, _⟩
    · rw [hnone] at hs
      cases hs
    · obtain rfl : s' = s := Option.some.inj (hs'.symm.trans hs)
      exact hreferenced
  · intro π hπ t ht
    rcases hcases t with ⟨_, hnx, hny⟩ | ⟨s, hs, _, hcounts⟩
    · rcases hπ with hπ | hπ
      · obtain ⟨s, hs, _⟩ := hπ t ht
        rw [hnx] at hs
        cases hs
      · obtain ⟨s, hs, _⟩ := hπ t ht
        rw [hny] at hs
        cases hs
    · refine ⟨s, hs, ?_⟩
      rcases hπ with hπ | hπ
      · obtain ⟨s', hs', hcounted⟩ := hπ t ht
        exact hcounts s' (.inl hs') _ hcounted
      · obtain ⟨s', hs', hcounted⟩ := hπ t ht
        exact hcounts s' (.inr hs') _ hcounted

theorem elementWise_sound (hT : T.Geometry) (hindex : index < T.nSets)
    (O : SetWiseCountingPersistence.SharedOptions) :
    (elementWise T P mode O).Sound T P index
      (ElementWiseCountingPersistence.Referenced T P mode index)
      (ElementWiseCountingPersistence.CountsSince T P index) where
  new := by
    constructor
    · intro t s hs
      cases hs
    · intro t ht
      exact absurd ht List.not_mem_nil
  update _ _ _ assumption _ _ hW hprecise hin hu :=
    elementWise_update hT hW hprecise hin assumption hu
  potentialUpdate _ _ _ _ _ hW hu := elementWise_potentialUpdate hT hindex hW hu
  join _ _ _ hx hy hu := elementWise_join hT hindex hx hy hu

end Llvmta
