import Llvmta.Memory.DirtinessEntries

/-!
# Soundness of the dirtiness analysis

A precise access tracks its line and brings the entries up to date with what the
must and the may analysis evict. An unknown access does so as a load; a store then
marks the lines it may have written, which makes up for their unknown ages.
-/

namespace Llvmta

open Checked Lru DirtinessClassification

namespace DirtinessAnalysis

variable {T : CacheTraits}

/-! ## update -/

theorem find?_storeTo (d : DirtinessAnalysis) (load_store : AccessType) (t u : ℕ) :
    ((d.track t).storeTo load_store t).1.dirtiness.find? u =
      if u = t then some (if isStore load_store then dclDirty else d.classificationAt t)
      else d.dirtiness.find? u := by
  cases load_store with
  | load => exact find?_track d t u
  | store =>
    rw [storeTo]
    dsimp only
    by_cases hu : u = t
    · rw [hu, OrderedMap.find?_insert_self, if_pos rfl]
      rfl
    · rw [OrderedMap.find?_insert_of_ne (Ne.symm hu), find?_track, if_neg hu, if_neg hu]

theorem storeTo_frame (d : DirtinessAnalysis) (load_store : AccessType) (t : ℕ) :
    ((d.track t).storeTo load_store t).1.must = d.must ∧
      ((d.track t).storeTo load_store t).1.may = d.may ∧
      ((d.track t).storeTo load_store t).1.implicitDirty = d.implicitDirty := by
  cases load_store <;> simp [storeTo]

/-- A store is reported as dirtifying unless its tag is dirty for sure. -/
theorem storeTo_dirtifying {fresh : Set ℕ} {d : DirtinessAnalysis} {load_store : AccessType} {t : ℕ}
    {c : WritebackSet ℕ T.associativity} (h : d.Follows fresh c) (hstore : isStore load_store = true)
    (hclean : t ∉ c.dirty) : ((d.track t).storeTo load_store t).2 = true := by
  cases load_store with
  | load => cases hstore
  | store =>
    apply decide_eq_true
    rw [classificationAt_track]
    intro hdirty
    exact hclean (h.dirty t (find?_of_dirty hdirty))

/-- The access to a tag and the report of the must analysis keep what is dirty. -/
theorem accessed_update {d : DirtinessAnalysis} {K : Set (WritebackSet ℕ T.associativity)}
    (h : d.Describes T K) {tag : ℕ} {load_store : AccessType} {must : LruMaxAgeAbstractCache}
    {may : LruMinAgeAbstractCache} {mustTags mayTags : List ℕ} (hA : 0 < T.associativity)
    (hmust : must.Describes T ((LruMaxAgeAbstractCache.analysis T).image
      (.update tag true .clUnknown) (WritebackSet.set '' K)))
    (hstored : ∀ t age, d.must.Stores t age → t ≠ tag →
      t ∈ mustTags ∨ ∃ age', must.Stores t age')
    (hmay : LruMinAgeAbstractCache.Updated T (d.may.getMinAge tag) tag d.may may)
    (hevicted : ∀ t ∈ mayTags, may.getMinAge t = T.associativity)
    {c : WritebackSet ℕ T.associativity} (hc : c ∈ K) :
    Accessed ∅ mustTags mayTags (decide (d.may.ageOfImplicitTags ≤ d.may.getMinAge tag ∧
        d.may.ageOfImplicitTags < T.associativity ∧ may.ageOfImplicitTags = T.associativity))
      { ((d.track tag).storeTo load_store tag).1 with must, may }
      (c.access (isStore load_store) tag) := by
  have hfollows := h.follows c hc
  have hbounds := h.may.2 c.set ⟨c, hc, rfl⟩
  have hbounds' := hbounds.access h.may.1 hmay
  have hin {t : ℕ} (ht : ∃ age, must.Stores t age) : t ∈ c.set.access tag := by
    obtain ⟨age, ht⟩ := ht
    exact hmust.mem_of_stores ⟨c.set, ⟨c, hc, rfl⟩, rfl⟩ ht
  refine ⟨fun t ht => ?_, fun t ht hdirty => ?_, fun t hdirty hnone => ?_, hbounds',
    fun t ht hmem => ?_, fun hunknowns => ?_⟩
  · have ht := (find?_storeTo d load_store tag t).symm.trans ht
    split_ifs at ht with htag hstore
    · right
      subst htag
      exact WritebackSet.mem_dirty_access.mpr ⟨.inr ⟨hstore, rfl⟩, c.set.mem_access_self t hA⟩
    · right
      subst htag
      have hdirty := hfollows.dirty t (find?_of_dirty (Option.some.inj ht))
      exact WritebackSet.mem_dirty_access.mpr ⟨.inl hdirty, c.set.mem_access_self t hA⟩
    · obtain ⟨age, hage⟩ := h.tracks.stored t ht
      apply (hstored t age hage htag).imp_right
      intro hkept
      exact WritebackSet.mem_dirty_access.mpr ⟨.inl (hfollows.dirty t ht), hin hkept⟩
  · have ht := (find?_storeTo d load_store tag t).symm.trans ht
    split_ifs at ht with htag hstore
    · exact absurd ht (by decide)
    · subst htag
      rw [Bool.not_eq_true] at hstore
      rw [hstore] at hdirty
      exact hfollows.notMem_of_clean (Option.some.inj ht) (WritebackSet.mem_dirty_of_load hdirty)
    · exact hfollows.clean t ht (WritebackSet.mem_dirty_of_ne htag hdirty)
  · have ht := (find?_storeTo d load_store tag t).symm.trans hnone
    split_ifs at ht with htag
    obtain ⟨himplicit, hage⟩ := hfollows.implicit t (WritebackSet.mem_dirty_of_ne htag hdirty) ht
    have hage := hage.resolve_left (Set.notMem_empty t)
    have hin := (c.access (isStore load_store) tag).mem_of_dirty t hdirty
    refine ⟨(storeTo_frame d load_store tag).2.2.trans himplicit, .inr ?_⟩
    dsimp only
    rw [hmay.implicit_eq, LruMinAgeAbstractCache.nextAgeOfImplicitTags]
    split_ifs with hnext
    · have hle := Nat.mod_le (d.may.ageOfImplicitTags + 1) (2 ^ 8)
      exact hle.trans (CacheSet.succ_le_age_access htag hin hage (hbounds tag) hnext.1)
    · exact hage.trans (CacheSet.mem_of_mem_access htag hin).2
  · have hmem : t ∈ c.set.access tag := hmem
    have hbound := hbounds' t hmem
    have hlt := CacheSet.age_lt_ways hmem
    rw [hevicted t ht] at hbound
    omega
  · exact ⟨(of_decide_eq_true hunknowns).2.2, rfl⟩

theorem reportCovers_reportOf {A : ℕ} {c c' : WritebackSet ℕ A} {wantReport wb dfs : Bool}
    (hwb : WritebackSet.WritesBack c c' → wb = true)
    (hdfs : WritebackSet.TurnsDirty c c' → dfs = true) :
    ReportCovers (reportOf wantReport wb dfs) c c' := by
  intro wb' dfs' h
  unfold reportOf at h
  split_ifs at h
  cases h
  exact ⟨hwb, hdfs⟩

/-- The parts of a finished access. -/
theorem finishAccess_eq_ok {d d' : DirtinessAnalysis} {must : LruMaxAgeAbstractCache}
    {may : LruMinAgeAbstractCache} {mustReport mayReport : Option UpdateReport} {b : Bool}
    (h : d.finishAccess T (must, mustReport) (may, mayReport) = .ok (d', b)) :
    existsDirtyVictim T { d with must, may } = .ok b ∧
      incorporateMustMayUpdates T { d with must, may } mustReport mayReport = .ok d' := by
  obtain ⟨b', hb, h⟩ := bind_eq_ok.mp h
  obtain ⟨d'', hd, h⟩ := bind_eq_ok.mp h
  cases h
  exact ⟨hb, hd⟩

/-- The sets after an access to a tag. -/
def accessAll {A : ℕ} (load_store : AccessType) (tag : ℕ) (K : Set (WritebackSet ℕ A)) :
    Set (WritebackSet ℕ A) := {c' | ∃ c ∈ K, c' = c.access (isStore load_store) tag}

/-- What `update` does to a state, and what it reports. -/
theorem describes_update (hA0 : 0 < T.associativity) (hA : T.associativity < 256)
    {d : DirtinessAnalysis} {K : Set (WritebackSet ℕ T.associativity)} (h : d.Describes T K)
    {tag : ℕ} {load_store : AccessType} {wantReport : Bool} {assumption : Classification}
    (hop : LruMaxAgeAbstractCache.assumesHit T assumption = true → ∀ c ∈ K, tag ∈ c.set)
    {d' : DirtinessAnalysis} {report : Option UpdateReport}
    (hd : d.update T tag load_store wantReport assumption = .ok (d', report)) :
    d'.Describes T (accessAll load_store tag K) ∧ ∀ c ∈ K,
      ReportCovers report c (c.access (isStore load_store) tag) := by
  obtain ⟨hmustEq, hmayEq, himplicitEq⟩ := storeTo_frame d load_store tag
  have hlegal : LruMaxAgeAbstractCache.assumesHit T assumption = true →
      ∀ c ∈ WritebackSet.set '' K, tag ∈ c := by
    rintro hhit _ ⟨c, hc, rfl⟩
    exact hop hhit c hc
  obtain ⟨must, mustTags, hmu, hmust, hkeeps⟩ := h.must.update hA0 true hlegal
  obtain ⟨may, mayTags, hma, hmay, hevicted⟩ :=
    LruMinAgeAbstractCache.update_spec h.may.1 tag true assumption
  obtain ⟨hself, hstored⟩ := hkeeps hA
  unfold update at hd
  simp only [hmustEq, hmayEq, hmu, hma, ok_bind] at hd
  obtain ⟨⟨d'', wb⟩, hfinish, hd⟩ := bind_eq_ok.mp hd
  cases hd
  obtain ⟨hvictim, hincorporate⟩ := finishAccess_eq_ok hfinish
  obtain ⟨hmust', hmay', _, _⟩ := incorporate_spec hincorporate
  have hsets {c : WritebackSet ℕ T.associativity} (hc : c ∈ K) : c.set.access tag ∈
      (LruMaxAgeAbstractCache.analysis T).image (.update tag true assumption)
        (WritebackSet.set '' K) := ⟨c.set, ⟨c, hc, rfl⟩, rfl⟩
  have hentry {t : ℕ} {dcl : DirtinessClassification}
      (ht : ((d.track tag).storeTo load_store tag).1.dirtiness.find? t = some dcl) :
      t = tag ∨ d.dirtiness.find? t = some dcl := by
    by_cases htag : t = tag
    · exact .inl htag
    · rw [find?_storeTo, if_neg htag] at ht
      exact .inr ht
  refine ⟨⟨?_, ?_, ?_, ?_⟩, fun c hc => ?_⟩
  · rw [hmust']
    obtain ⟨_, c, hc, _⟩ := h.must.1
    have hne : (WritebackSet.set '' accessAll load_store tag K).Nonempty :=
      ⟨_, _, ⟨c, hc, rfl⟩, rfl⟩
    apply hmust.mono hne
    rintro _ ⟨_, ⟨c, hc, rfl⟩, rfl⟩
    exact hsets hc
  · rw [hmay']
    refine ⟨hmay.wellFormed, ?_⟩
    rintro _ ⟨_, ⟨c, hc, rfl⟩, rfl⟩
    exact (h.may.2 c.set ⟨c, hc, rfl⟩).access h.may.1 hmay
  · apply tracks_of_incorporate _ _ hincorporate
    · intro t dcl ht
      rw [find?_storeTo] at ht
      split_ifs at ht with htag hstore
      · cases ht
        exact .inl rfl
      · cases ht
        exact h.tracks.proper_at tag
      · exact h.tracks.proper t dcl ht
    · intro t ht
      by_cases htag : t = tag
      · exact .inr ⟨0, htag ▸ hself⟩
      · obtain ⟨age, hage⟩ := h.tracks.stored t ((hentry ht).resolve_left htag)
        exact hstored t age hage htag
  · rintro _ ⟨c, hc, rfl⟩
    apply Accessed.follows _ hincorporate
    exact accessed_update h hA0 hmust hstored hmay (fun t ht => (hevicted t ht).1) hc
  · apply reportCovers_reportOf
    · intro hwb
      have hfollows := h.follows c hc
      apply existsDirtyVictim_spec hfollows _ _ _ _ hvictim hwb
      · intro t _ hnone
        have ht := (find?_storeTo d load_store tag t).symm.trans hnone
        split_ifs at ht
        exact ht
      · intro t ht
        have ht := (find?_storeTo d load_store tag t).symm.trans ht
        split_ifs at ht with htag hstore
        · exact absurd ht (by decide)
        · subst htag
          exact hfollows.notMem_of_clean (Option.some.inj ht)
        · exact hfollows.clean t ht
      · exact himplicitEq
      · apply hmust.mono (Set.singleton_nonempty _)
        rintro _ rfl
        exact hsets hc
    · intro hdirty
      obtain ⟨hstore, hclean⟩ := WritebackSet.turnsDirty_access hdirty
      exact storeTo_dirtifying (h.follows c hc) hstore hclean

/-! ## potentialUpdate -/

/-- The sets after an access to an unknown line, or to none. -/
def accessSome (T : CacheTraits) (index : ℕ) (itv : AddressInterval) (load_store : AccessType)
    {A : ℕ} (c c' : WritebackSet ℕ A) : Prop :=
  c' = c ∨ ∃ addr ∈ itv, getindex T addr = index ∧
    c' = c.access (isStore load_store) (getTag T addr)

/-- The tags of an interval. -/
def tagsOf (T : CacheTraits) (itv : AddressInterval) : Set ℕ :=
  {t | getTag T itv.lower ≤ t ∧ t ≤ getTag T itv.upper}

/-- After the access as a load, `c` may turn dirty within the tags of `touched`. -/
structure MarkedFrom {A : ℕ} (touched : Set ℕ) (load_store : AccessType)
    (c c' : WritebackSet ℕ A) : Prop where
  set_eq : c'.set = c.set
  dirty : ∀ t ∈ c.dirty, t ∈ c'.dirty
  marked : ∀ t ∈ c'.dirty, t ∈ c.dirty ∨ isStore load_store = true ∧ t ∈ touched

/-- An access is a load, after which a store marks its line. -/
theorem accessSome_eq {index : ℕ} {itv : AddressInterval} {load_store : AccessType} {A : ℕ}
    {c c' : WritebackSet ℕ A} (h : accessSome T index itv load_store c c') :
    ∃ c'', accessSome T index itv .load c c'' ∧ MarkedFrom (tagsOf T itv) load_store c'' c' := by
  rcases h with rfl | ⟨addr, haddr, hindex, rfl⟩
  · exact ⟨c', .inl rfl, rfl, fun t ht => ht, fun t ht => .inl ht⟩
  · refine ⟨c.access false (getTag T addr), .inr ⟨addr, haddr, hindex, rfl⟩, rfl,
      fun t ht => ?_, fun t ht => ?_⟩
    · obtain ⟨hdirty, hin⟩ := WritebackSet.mem_dirty_access.mp ht
      exact WritebackSet.mem_dirty_access.mpr ⟨.inl (WritebackSet.mem_dirty_of_load ht), hin⟩
    · obtain ⟨hdirty | ⟨hstore, rfl⟩, hin⟩ := WritebackSet.mem_dirty_access.mp ht
      · exact .inl (WritebackSet.mem_dirty_access.mpr ⟨.inl hdirty, hin⟩)
      · exact .inr ⟨hstore, LruMinAgeAbstractCache.getTag_mono haddr.1,
          LruMinAgeAbstractCache.getTag_mono haddr.2⟩

theorem dirty_of_accessSome {index : ℕ} {itv : AddressInterval} {A : ℕ}
    {c c' : WritebackSet ℕ A} (h : accessSome T index itv .load c c') {t : ℕ} (ht : t ∈ c'.dirty) :
    t ∈ c.dirty := by
  rcases h with rfl | ⟨addr, _, _, rfl⟩
  · exact ht
  · exact WritebackSet.mem_dirty_of_load ht

/-- The unknown access, as a load, and the report of the must analysis keep what is dirty. -/
theorem accessed_potentialUpdate {d : DirtinessAnalysis}
    {K : Set (WritebackSet ℕ T.associativity)} (h : d.Describes T K) {index : ℕ}
    {itv : AddressInterval} {must : LruMaxAgeAbstractCache} {may : LruMinAgeAbstractCache}
    {mustTags : List ℕ} (hmust : must.Describes T ((LruMaxAgeAbstractCache.analysis T).image
      (.potentialUpdate true) (WritebackSet.set '' K)))
    (hstored : ∀ t age, d.must.Stores t age → t ∈ mustTags ∨ ∃ age', must.Stores t age')
    (hmay : LruMinAgeAbstractCache.Lowered T (fun t => t ∈ tagsOf T itv) d.may may)
    (hage : may.ageOfImplicitTags ≤ d.may.ageOfImplicitTags)
    {c c' : WritebackSet ℕ T.associativity} (hc : c ∈ K)
    (hstep : accessSome T index itv .load c c') :
    Accessed (tagsOf T itv) mustTags [] false { d with must, may } c' := by
  have hfollows := h.follows c hc
  have hbounds := h.may.2 c.set ⟨c, hc, rfl⟩
  have hin : c'.set ∈ (LruMaxAgeAbstractCache.analysis T).image (.potentialUpdate true)
      (WritebackSet.set '' K) := by
    refine ⟨c.set, ⟨c, hc, rfl⟩, ?_⟩
    rcases hstep with rfl | ⟨addr, _, _, rfl⟩
    · exact .inl rfl
    · exact .inr ⟨getTag T addr, rfl⟩
  refine ⟨fun t ht => ?_, fun t ht hdirty => ?_, fun t hdirty hnone => ?_, ?_,
    fun t ht => absurd ht List.not_mem_nil, fun h => absurd h (by decide)⟩
  · obtain ⟨age, hage⟩ := h.tracks.stored t ht
    apply (hstored t age hage).imp_right
    rintro ⟨age', hkept⟩
    have hcached := hmust.mem_of_stores hin hkept
    have hdirty := hfollows.dirty t ht
    rcases hstep with rfl | ⟨addr, _, _, rfl⟩
    · exact hdirty
    · exact WritebackSet.mem_dirty_access.mpr ⟨.inl hdirty, hcached⟩
  · exact hfollows.clean t ht (dirty_of_accessSome hstep hdirty)
  · obtain ⟨himplicit, hold⟩ := hfollows.implicit t (dirty_of_accessSome hstep hdirty) hnone
    have hold := hage.trans (hold.resolve_left (Set.notMem_empty t))
    refine ⟨himplicit, ?_⟩
    rcases hstep with rfl | ⟨addr, haddr, _, rfl⟩
    · exact .inr hold
    · by_cases htag : t = getTag T addr
      · left
        rw [htag]
        exact ⟨LruMinAgeAbstractCache.getTag_mono haddr.1,
          LruMinAgeAbstractCache.getTag_mono haddr.2⟩
      · right
        have hin := (c.access false (getTag T addr)).mem_of_dirty t hdirty
        exact hold.trans (CacheSet.mem_of_mem_access htag hin).2
  · rcases hstep with rfl | ⟨addr, haddr, _, rfl⟩
    · exact hbounds.lowered hmay
    · exact hbounds.access_lowered hmay ⟨LruMinAgeAbstractCache.getTag_mono haddr.1,
        LruMinAgeAbstractCache.getTag_mono haddr.2⟩

/-- What a potential update makes of a classification. -/
def touched (load_store : AccessType) (dcl : DirtinessClassification) : DirtinessClassification :=
  if isStore load_store then dcl.join dclDirty else dcl

theorem find?_touchTag (load_store : AccessType) (d : DirtinessAnalysis) (b : Bool) (t u : ℕ) :
    (touchTag load_store (d, b) t).1.dirtiness.find? u =
      if u = t then some (touched load_store (d.classificationAt t)) else d.dirtiness.find? u := by
  cases load_store with
  | load => exact find?_track d t u
  | store =>
    rw [touchTag]
    dsimp only
    by_cases hu : u = t
    · rw [hu, OrderedMap.find?_insert_self, if_pos rfl, classificationAt_track]
      rfl
    · rw [OrderedMap.find?_insert_of_ne (Ne.symm hu), find?_track, if_neg hu, if_neg hu]

theorem touchTag_frame (load_store : AccessType) (d : DirtinessAnalysis) (b : Bool) (t : ℕ) :
    (touchTag load_store (d, b) t).1.must = d.must ∧
      (touchTag load_store (d, b) t).1.may = d.may ∧
      (touchTag load_store (d, b) t).1.implicitDirty = d.implicitDirty := by
  cases load_store <;> simp [touchTag]

theorem touchTag_dirtifying (load_store : AccessType) (d : DirtinessAnalysis) (b : Bool) (t : ℕ) :
    (touchTag load_store (d, b) t).2 =
      (b || isStore load_store && decide (d.classificationAt t ≠ dclDirty)) := by
  cases load_store with
  | load => simp [touchTag, isStore]
  | store => simp [touchTag, isStore, classificationAt_track]

/-- The loop over the tags of the interval. -/
theorem touchTags_spec {load_store : AccessType} {tags : List ℕ} (hnodup : tags.Nodup)
    (d : DirtinessAnalysis) (b : Bool) :
    (tags.foldl (touchTag load_store) (d, b)).1.must = d.must ∧
      (tags.foldl (touchTag load_store) (d, b)).1.may = d.may ∧
      (tags.foldl (touchTag load_store) (d, b)).1.implicitDirty = d.implicitDirty ∧
      (∀ t, (tags.foldl (touchTag load_store) (d, b)).1.dirtiness.find? t =
        if t ∈ tags then some (touched load_store (d.classificationAt t))
        else d.dirtiness.find? t) ∧
      ((b = true ∨ isStore load_store = true ∧ ∃ t ∈ tags, d.classificationAt t ≠ dclDirty) →
        (tags.foldl (touchTag load_store) (d, b)).2 = true) := by
  induction tags generalizing d b with
  | nil => simp
  | cons v tags ih =>
    obtain ⟨hv, hnodup⟩ := List.nodup_cons.mp hnodup
    obtain ⟨hmust, hmay, himplicit⟩ := touchTag_frame load_store d b v
    have hat {t : ℕ} (ht : t ≠ v) :
        (touchTag load_store (d, b) v).1.classificationAt t = d.classificationAt t := by
      rw [classificationAt, find?_touchTag, if_neg ht, DirtinessAnalysis.implicit, himplicit]
      rfl
    obtain ⟨hmust', hmay', himplicit', hfind, hdirtifying⟩ := ih hnodup
      (touchTag load_store (d, b) v).1 (touchTag load_store (d, b) v).2
    refine ⟨hmust'.trans hmust, hmay'.trans hmay, himplicit'.trans himplicit, fun t => ?_,
      fun h => ?_⟩
    · rw [List.foldl_cons, hfind, find?_touchTag]
      by_cases htv : t = v
      · subst htv
        rw [if_neg hv, if_pos rfl, if_pos List.mem_cons_self]
      · rw [hat htv, if_neg htv]
        simp [htv]
    · apply hdirtifying
      rw [touchTag_dirtifying]
      rcases h with rfl | ⟨hstore, t, ht, hne⟩
      · exact .inl rfl
      · rcases List.mem_cons.mp ht with rfl | ht
        · left
          simp [hstore, hne]
        · have htv : t ≠ v := fun h => hv (h ▸ ht)
          exact .inr ⟨hstore, t, ht, by rwa [hat htv]⟩

/-- Tracking the tags that may have been accessed makes up for their unknown age. -/
theorem follows_touched {load_store : AccessType} {touchedTags : Set ℕ} {d d' : DirtinessAnalysis}
    {A : ℕ} {c c' : WritebackSet ℕ A} (h : d.Follows touchedTags c) (htracks : d.Tracks)
    (hmarked : MarkedFrom touchedTags load_store c c') (hmay : d'.may = d.may)
    (himplicit : d'.implicitDirty = d.implicitDirty)
    (hin : ∀ t ∈ touchedTags, d'.dirtiness.find? t =
      some (touched load_store (d.classificationAt t)))
    (hout : ∀ t, t ∉ touchedTags → d'.dirtiness.find? t = d.dirtiness.find? t) :
    d'.Follows ∅ c' := by
  have hproper : Proper dclDirty := .inl rfl
  refine ⟨fun t ht => ?_, fun t ht hdirty => ?_, fun t hdirty hnone => ?_⟩
  · apply hmarked.dirty
    apply h.dirty
    by_cases htouched : t ∈ touchedTags
    · rw [hin t htouched, Option.some_inj] at ht
      apply find?_of_dirty
      unfold touched at ht
      split_ifs at ht
      · exact (join_eq_dirty (htracks.proper_at t) hproper ht).1
      · exact ht
    · rwa [hout t htouched] at ht
  · by_cases htouched : t ∈ touchedTags
    · rw [hin t htouched, Option.some_inj] at ht
      unfold touched at ht
      split_ifs at ht with hstore
      · exact absurd (join_eq_clean (htracks.proper_at t) hproper ht).2 (by decide)
      · rcases hmarked.marked t hdirty with hdirty | ⟨hstore', _⟩
        · exact h.notMem_of_clean ht hdirty
        · exact hstore hstore'
    · rw [hout t htouched] at ht
      rcases hmarked.marked t hdirty with hdirty | ⟨_, hmem⟩
      · exact h.clean t ht hdirty
      · exact htouched hmem
  · have htouched : t ∉ touchedTags := by
      intro hmem
      rw [hin t hmem] at hnone
      cases hnone
    rw [hout t htouched] at hnone
    have hdirty := (hmarked.marked t hdirty).resolve_right fun hmem => htouched hmem.2
    obtain ⟨hd, hage⟩ := h.implicit t hdirty hnone
    rw [himplicit, hmay, hmarked.set_eq]
    exact ⟨hd, .inr (hage.resolve_left htouched)⟩

/-- A store to an unknown line. -/
theorem follows_storeAnywhere {load_store : AccessType} {fresh touchedTags : Set ℕ}
    {d : DirtinessAnalysis} {A : ℕ} {c c' : WritebackSet ℕ A} (h : d.Follows fresh c)
    (hmarked : MarkedFrom touchedTags load_store c c') (htop : d.may.ageOfImplicitTags = 0) :
    (d.storeAnywhere load_store).1.Follows ∅ c' := by
  have hfind (t : ℕ) : (d.deleteDirtiness dclClean).dirtiness.find? t =
      (d.dirtiness.find? t).filter fun dcl => dcl ≠ dclClean := OrderedMap.find?_filter _ _ t
  cases load_store with
  | load =>
    have hsame {t : ℕ} (ht : t ∈ c'.dirty) : t ∈ c.dirty :=
      (hmarked.marked t ht).resolve_right fun hstore => absurd hstore.1 (by decide)
    refine ⟨fun t ht => hmarked.dirty t (h.dirty t ht), fun t ht hdirty => ?_,
      fun t hdirty hnone => ?_⟩
    · exact h.clean t ht (hsame hdirty)
    · refine ⟨(h.implicit t (hsame hdirty) hnone).1, .inr ?_⟩
      rw [storeAnywhere, htop]
      exact Nat.zero_le _
  | store =>
    refine ⟨fun t ht => ?_, fun t ht => ?_, fun t hdirty hnone => ⟨rfl, .inr ?_⟩⟩
    · have ht := Option.filter_eq_some_iff.mp ((hfind t).symm.trans ht)
      exact hmarked.dirty t (h.dirty t ht.1)
    · have ht := Option.filter_eq_some_iff.mp ((hfind t).symm.trans ht)
      exact absurd ht.2 (by decide)
    · change d.may.ageOfImplicitTags ≤ _
      rw [htop]
      exact Nat.zero_le _

theorem tracks_touched {load_store : AccessType} {touchedTags : Set ℕ} {d d' : DirtinessAnalysis}
    (htracks : d.Tracks) (hmust : d'.must = d.must)
    (hin : ∀ t ∈ touchedTags, d'.dirtiness.find? t =
      some (touched load_store (d.classificationAt t)))
    (hout : ∀ t, t ∉ touchedTags → d'.dirtiness.find? t = d.dirtiness.find? t) : d'.Tracks := by
  have hproper : Proper dclDirty := .inl rfl
  refine ⟨fun t dcl ht => ?_, fun t ht => ?_⟩
  · by_cases htouched : t ∈ touchedTags
    · rw [hin t htouched] at ht
      cases ht
      unfold touched
      split_ifs
      · exact (htracks.proper_at t).join hproper
      · exact htracks.proper_at t
    · exact htracks.proper t dcl (hout t htouched ▸ ht)
  · rw [hmust]
    apply htracks.stored
    by_cases htouched : t ∈ touchedTags
    · rw [hin t htouched, Option.some_inj] at ht
      apply find?_of_dirty
      unfold touched at ht
      split_ifs at ht
      · exact (join_eq_dirty (htracks.proper_at t) hproper ht).1
      · exact ht
    · rwa [hout t htouched] at ht

/-- The last step of a potential update. -/
theorem describes_marked {d d' : DirtinessAnalysis} {load_store : AccessType}
    {itv : AddressInterval} {dfs : Bool} (htracks : d.Tracks)
    (htop : maxWorthwhileTags < toUnsigned (getTag T itv.upper - getTag T itv.lower + 1) →
      d.may.ageOfImplicitTags = 0)
    (hd : d.touchInterval T itv load_store = .ok (d', dfs)) :
    d'.must = d.must ∧ d'.may = d.may ∧ d'.Tracks ∧
      ∀ c : WritebackSet ℕ T.associativity, d.Follows (tagsOf T itv) c → ∀ c',
        MarkedFrom (tagsOf T itv) load_store c c' → d'.Follows ∅ c' ∧
        (WritebackSet.TurnsDirty c c' → dfs = true) := by
  have hturns {c c' : WritebackSet ℕ T.associativity}
      (hmarked : MarkedFrom (tagsOf T itv) load_store c c')
      (hdirty : WritebackSet.TurnsDirty c c') :
      isStore load_store = true ∧ ∃ t ∈ tagsOf T itv, t ∉ c.dirty := by
    obtain ⟨t, ht, hclean⟩ := hdirty
    obtain ⟨hstore, hmem⟩ := (hmarked.marked t ht).resolve_left hclean
    exact ⟨hstore, t, hmem, hclean⟩
  unfold touchInterval at hd
  dsimp only at hd
  split_ifs at hd with hlarge
  · have hd := Except.ok.inj hd
    obtain rfl : d' = (d.storeAnywhere load_store).1 := (congrArg Prod.fst hd).symm
    obtain rfl : dfs = (d.storeAnywhere load_store).2 := (congrArg Prod.snd hd).symm
    have hfind (t : ℕ) : (d.deleteDirtiness dclClean).dirtiness.find? t =
        (d.dirtiness.find? t).filter fun dcl => dcl ≠ dclClean := OrderedMap.find?_filter _ _ t
    have hkept {t : ℕ} {dcl : DirtinessClassification}
        (ht : (d.storeAnywhere load_store).1.dirtiness.find? t = some dcl) :
        d.dirtiness.find? t = some dcl := by
      cases load_store with
      | load => exact ht
      | store => exact (Option.filter_eq_some_iff.mp ((hfind t).symm.trans ht)).1
    have hmust : (d.storeAnywhere load_store).1.must = d.must := by cases load_store <;> rfl
    have hmay : (d.storeAnywhere load_store).1.may = d.may := by cases load_store <;> rfl
    refine ⟨hmust, hmay, ⟨fun t dcl ht => htracks.proper t dcl (hkept ht), fun t ht => ?_⟩,
      fun c hc c' hmarked => ⟨follows_storeAnywhere hc hmarked (htop hlarge), fun hdirty => ?_⟩⟩
    · exact hmust ▸ htracks.stored t (hkept ht)
    · cases load_store with
      | load => exact absurd (hturns hmarked hdirty).1 (by decide)
      | store => rfl
  · unfold touchTags at hd
    split_ifs at hd
    have hd := Except.ok.inj hd
    obtain rfl := (congrArg Prod.fst hd).symm
    obtain rfl := (congrArg Prod.snd hd).symm
    have hmem (t : ℕ) : t ∈ List.range' (getTag T itv.lower)
        (getTag T itv.upper + 1 - getTag T itv.lower) ↔ t ∈ tagsOf T itv := by
      have hle := LruMinAgeAbstractCache.getTag_mono (T := T) itv.lower_le
      rw [List.mem_range'_1, tagsOf, Set.mem_ofPred_eq]
      omega
    have hnodup : (List.range' (getTag T itv.lower)
        (getTag T itv.upper + 1 - getTag T itv.lower)).Nodup := List.nodup_range'
    obtain ⟨hmust, hmay, himplicit, hfind, hdirtifying⟩ := touchTags_spec hnodup d false
    have hin (t : ℕ) (ht : t ∈ tagsOf T itv) := (hfind t).trans (if_pos ((hmem t).mpr ht))
    have hout (t : ℕ) (ht : t ∉ tagsOf T itv) := (hfind t).trans (if_neg fun h => ht ((hmem t).mp h))
    refine ⟨hmust, hmay, tracks_touched htracks hmust hin hout, fun c hc c' hmarked => ⟨?_, ?_⟩⟩
    · exact follows_touched hc htracks hmarked hmay himplicit hin hout
    · intro hdirty
      obtain ⟨hstore, t, ht, hclean⟩ := hturns hmarked hdirty
      apply hdirtifying
      refine .inr ⟨hstore, t, (hmem t).mpr ht, fun hcls => ?_⟩
      exact hclean (hc.dirty t (find?_of_dirty hcls))

/-- What `potentialUpdate` does to a state, and what it reports. -/
theorem describes_potentialUpdate {d : DirtinessAnalysis}
    {K : Set (WritebackSet ℕ T.associativity)} (h : d.Describes T K) (index : ℕ)
    {itv : AddressInterval} {load_store : AccessType} {wantReport : Bool}
    {d' : DirtinessAnalysis} {report : Option UpdateReport}
    (hd : d.potentialUpdate T itv load_store wantReport = .ok (d', report)) :
    d'.Describes T {c' | ∃ c ∈ K, accessSome T index itv load_store c c'} ∧ ∀ c ∈ K, ∀ c',
      accessSome T index itv load_store c c' → ReportCovers report c c' := by
  obtain ⟨must, mustTags, hmu, hmust, hstored⟩ := h.must.potentialUpdate true
  unfold potentialUpdate at hd
  rw [hmu, ok_bind] at hd
  obtain ⟨⟨may, mayReport⟩, hma, hd⟩ := bind_eq_ok.mp hd
  obtain ⟨introduced, rfl⟩ := LruMinAgeAbstractCache.potentialUpdate_report hma
  obtain ⟨hage, htop⟩ := LruMinAgeAbstractCache.implicit_of_potentialUpdate hma
  have hmay := LruMinAgeAbstractCache.potentialUpdate_spec h.may.1 hma
  obtain ⟨⟨d₁, wb⟩, hfinish, hd⟩ := bind_eq_ok.mp hd
  obtain ⟨⟨d₂, dfs⟩, hmark, hd⟩ := bind_eq_ok.mp hd
  cases hd
  obtain ⟨hvictim, hincorporate⟩ := finishAccess_eq_ok hfinish
  obtain ⟨hmust₁, hmay₁, _, _⟩ := incorporate_spec hincorporate
  have htracks₁ : d₁.Tracks := by
    apply tracks_of_incorporate _ _ hincorporate
    · exact h.tracks.proper
    · intro t ht
      obtain ⟨age, hage⟩ := h.tracks.stored t ht
      exact hstored t age hage
  obtain ⟨hmust₂, hmay₂, htracks₂, hmarked₂⟩ :=
    describes_marked htracks₁ (fun hlarge => hmay₁ ▸ htop hlarge) hmark
  have hset {c c' : WritebackSet ℕ T.associativity} (hc : c ∈ K)
      (hstep : accessSome T index itv load_store c c') :
      c'.set ∈ (LruMaxAgeAbstractCache.analysis T).image (.potentialUpdate true)
        (WritebackSet.set '' K) := by
    refine ⟨c.set, ⟨c, hc, rfl⟩, ?_⟩
    rcases hstep with rfl | ⟨addr, _, _, rfl⟩
    · exact .inl rfl
    · exact .inr ⟨getTag T addr, rfl⟩
  have hloaded {c c' : WritebackSet ℕ T.associativity} (hc : c ∈ K)
      (hstep : accessSome T index itv .load c c') : d₁.Follows (tagsOf T itv) c' :=
    (accessed_potentialUpdate h hmust hstored hmay hage hc hstep).follows hincorporate
  refine ⟨⟨?_, ?_, htracks₂, ?_⟩, fun c hc c' hstep => ?_⟩
  · rw [hmust₂, hmust₁]
    obtain ⟨_, c, hc, _⟩ := h.must.1
    have hne : (WritebackSet.set '' {c' : WritebackSet ℕ T.associativity |
        ∃ c ∈ K, accessSome T index itv load_store c c'}).Nonempty := ⟨_, c, ⟨c, hc, .inl rfl⟩, rfl⟩
    apply hmust.mono hne
    rintro _ ⟨c', ⟨c, hc, hstep⟩, rfl⟩
    exact hset hc hstep
  · rw [hmay₂, hmay₁]
    refine ⟨hmay.wellFormed, ?_⟩
    rintro _ ⟨c', ⟨c, hc, hstep⟩, rfl⟩
    have hbounds := h.may.2 c.set ⟨c, hc, rfl⟩
    rcases hstep with rfl | ⟨addr, haddr, _, rfl⟩
    · exact hbounds.lowered hmay
    · exact hbounds.access_lowered hmay ⟨LruMinAgeAbstractCache.getTag_mono haddr.1,
        LruMinAgeAbstractCache.getTag_mono haddr.2⟩
  · rintro c' ⟨c, hc, hstep⟩
    obtain ⟨c'', hload, hmarked⟩ := accessSome_eq hstep
    exact (hmarked₂ c'' (hloaded hc hload) c' hmarked).1
  · obtain ⟨c'', hload, hmarked⟩ := accessSome_eq hstep
    have hfollows := h.follows c hc
    apply reportCovers_reportOf
    · intro hwb
      apply existsDirtyVictim_spec hfollows _ _ _ _ hvictim hwb
      · exact fun t _ hnone => hnone
      · exact hfollows.clean
      · rfl
      · apply hmust.mono (Set.singleton_nonempty _)
        rintro _ rfl
        exact hset hc hstep
    · intro hdirty
      apply (hmarked₂ c'' (hloaded hc hload) c' hmarked).2
      obtain ⟨t, ht, hclean⟩ := hdirty
      exact ⟨t, ht, fun hdirty => hclean (dirty_of_accessSome hload hdirty)⟩

/-! ## join -/

/-- A join describes the sets of both operands. -/
theorem describes_join {d y u : DirtinessAnalysis} {K L : Set (WritebackSet ℕ T.associativity)}
    (hd : d.Describes T K) (hy : y.Describes T L) (hu : d.join T y = .ok u) :
    u.Describes T (K ∪ L) := by
  obtain ⟨must, hmustEq, hmust, hstored⟩ :=
    LruMaxAgeAbstractCache.describes_join d.must y.must _ _ hd.must hy.must
  obtain ⟨may, hmayEq, hmay, himplicitAge, hle, _⟩ :=
    LruMinAgeAbstractCache.join_spec hd.may.1 hy.may.1
  have hmustEq : LruMaxAgeAbstractCache.join T d.must y.must = .ok must := hmustEq
  unfold join at hu
  simp only [hmustEq, hmayEq, ok_bind, Except.ok.injEq] at hu
  subst hu
  have hcases (t : ℕ) :
      (d.dirtiness.find? t = none ∧ y.dirtiness.find? t = none ∧
        (OrderedMap.merge (fun _ xelem yelem =>
          (xelem.getD d.implicit).join (yelem.getD y.implicit)) d.dirtiness y.dirtiness).find? t =
          none) ∨
      (OrderedMap.merge (fun _ xelem yelem =>
        (xelem.getD d.implicit).join (yelem.getD y.implicit)) d.dirtiness y.dirtiness).find? t =
        some ((d.classificationAt t).join (y.classificationAt t)) := by
    rw [OrderedMap.find?_merge, classificationAt, classificationAt]
    cases d.dirtiness.find? t with
    | none =>
      cases y.dirtiness.find? t with
      | none => exact .inl ⟨rfl, rfl, rfl⟩
      | some dcl => exact .inr rfl
    | some dcl => exact .inr rfl
  have hentry {t : ℕ} {dcl : DirtinessClassification} (ht : (OrderedMap.merge (fun _ xelem yelem =>
      (xelem.getD d.implicit).join (yelem.getD y.implicit)) d.dirtiness y.dirtiness).find? t =
      some dcl) : (d.classificationAt t).join (y.classificationAt t) = dcl := by
    rcases hcases t with ⟨_, _, hnone⟩ | hsome
    · rw [hnone] at ht
      cases ht
    · rw [hsome] at ht
      exact Option.some.inj ht
  refine ⟨?_, ⟨hmay, ?_⟩, ⟨fun t dcl ht => ?_, fun t ht => ?_⟩, fun c hc => ⟨fun t ht => ?_,
    fun t ht => ?_, fun t hdirty hnone => ?_⟩⟩
  · rw [Set.image_union]
    exact hmust
  · rintro _ ⟨c, hc | hc, rfl⟩ t ht
    · exact (hle t).1.trans (hd.may.2 c.set ⟨c, hc, rfl⟩ t ht)
    · exact (hle t).2.trans (hy.may.2 c.set ⟨c, hc, rfl⟩ t ht)
  · exact hentry ht ▸ (hd.tracks.proper_at t).join (hy.tracks.proper_at t)
  · obtain ⟨hx, hx'⟩ := join_eq_dirty (hd.tracks.proper_at t) (hy.tracks.proper_at t) (hentry ht)
    obtain ⟨age, hage⟩ := hd.tracks.stored t (find?_of_dirty hx)
    obtain ⟨age', hage'⟩ := hy.tracks.stored t (find?_of_dirty hx')
    exact hstored t age age' hage hage'
  · obtain ⟨hx, hx'⟩ := join_eq_dirty (hd.tracks.proper_at t) (hy.tracks.proper_at t) (hentry ht)
    rcases hc with hc | hc
    · exact (hd.follows c hc).dirty t (find?_of_dirty hx)
    · exact (hy.follows c hc).dirty t (find?_of_dirty hx')
  · obtain ⟨hx, hx'⟩ := join_eq_clean (hd.tracks.proper_at t) (hy.tracks.proper_at t) (hentry ht)
    rcases hc with hc | hc
    · exact (hd.follows c hc).notMem_of_clean hx
    · exact (hy.follows c hc).notMem_of_clean hx'
  · rcases hcases t with ⟨hx, hx', _⟩ | hsome
    · dsimp only
      rw [himplicitAge]
      rcases hc with hc | hc
      · obtain ⟨himplicit, hage⟩ := (hd.follows c hc).implicit t hdirty hx
        have hage := hage.resolve_left (Set.notMem_empty t)
        exact ⟨by rw [himplicit, Bool.true_or], .inr ((min_le_left _ _).trans hage)⟩
      · obtain ⟨himplicit, hage⟩ := (hy.follows c hc).implicit t hdirty hx'
        have hage := hage.resolve_left (Set.notMem_empty t)
        exact ⟨by rw [himplicit, Bool.or_true], .inr ((min_le_right _ _).trans hage)⟩
    · have hnone := hsome.symm.trans hnone
      cases hnone

end DirtinessAnalysis

end Llvmta
