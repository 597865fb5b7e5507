import Llvmta.Library.LruWriteback
import Llvmta.Memory.DirtinessAnalysis
import Llvmta.Memory.LruMaxAgeSoundness
import Llvmta.Memory.LruMinAgeSoundness

/-!
# The entries of the dirtiness analysis

A state stands for a set whose dirty lines are not recorded as clean: a line without
an entry is dirty only while `implicitDirty` is set, and then it is no younger than
the lines the may analysis does not know. So these lines have left the set when the
may analysis evicts its last unknown line. A line recorded as dirty is, and the must
analysis holds it, so that its report tells when it may be written back.
-/

namespace Llvmta

open Checked Lru DirtinessClassification

namespace DirtinessAnalysis

variable {T : CacheTraits}

/-! ## Classifications -/

/-- The classifications that occur. -/
def Proper (dcl : DirtinessClassification) : Prop :=
  dcl = dclDirty ∨ dcl = dclClean ∨ dcl = dclUnknown

theorem join_eq_dirty {x y : DirtinessClassification} (hx : Proper x) (hy : Proper y)
    (h : x.join y = dclDirty) : x = dclDirty ∧ y = dclDirty := by
  rcases hx with rfl | rfl | rfl <;> rcases hy with rfl | rfl | rfl <;> revert h <;> decide

theorem join_eq_clean {x y : DirtinessClassification} (hx : Proper x) (hy : Proper y)
    (h : x.join y = dclClean) : x = dclClean ∧ y = dclClean := by
  rcases hx with rfl | rfl | rfl <;> rcases hy with rfl | rfl | rfl <;> revert h <;> decide

theorem Proper.join {x y : DirtinessClassification} (hx : Proper x) (hy : Proper y) :
    Proper (x.join y) := by
  rcases hx with rfl | rfl | rfl <;> rcases hy with rfl | rfl | rfl <;>
    simp only [Proper] <;> decide

theorem proper_implicit (d : DirtinessAnalysis) : Proper d.implicit := by
  unfold implicit
  split_ifs
  · exact .inr (.inr rfl)
  · exact .inr (.inl rfl)

theorem implicit_ne_dirty (d : DirtinessAnalysis) : d.implicit ≠ dclDirty := by
  unfold implicit
  split_ifs <;> decide

theorem implicit_eq_clean {d : DirtinessAnalysis} (h : d.implicit = dclClean) :
    d.implicitDirty = false := by
  unfold implicit at h
  split_ifs at h with himplicit
  · exact absurd h (by decide)
  · simpa using himplicit

/-- Whether the access is a store. -/
def isStore : AccessType → Bool
  | .store => true
  | .load => false

/-! ## What a state stands for -/

/-- The entries of a state, whatever it stands for. -/
structure Tracks (d : DirtinessAnalysis) : Prop where
  proper : ∀ t dcl, d.dirtiness.find? t = some dcl → Proper dcl
  stored : ∀ t, d.dirtiness.find? t = some dclDirty → ∃ age, d.must.Stores t age

/-- The state describes the dirty lines of a set. The lines of `fresh` have just been
accessed and are not yet tracked. -/
structure Follows {A : ℕ} (fresh : Set ℕ) (d : DirtinessAnalysis) (c : WritebackSet ℕ A) :
    Prop where
  dirty : ∀ t, d.dirtiness.find? t = some dclDirty → t ∈ c.dirty
  clean : ∀ t, d.dirtiness.find? t = some dclClean → t ∉ c.dirty
  implicit : ∀ t ∈ c.dirty, d.dirtiness.find? t = none → d.implicitDirty = true ∧
    (t ∈ fresh ∨ d.may.ageOfImplicitTags ≤ c.set.age t)

/-- The state describes all sets of `K`. -/
structure Describes (T : CacheTraits) (d : DirtinessAnalysis)
    (K : Set (WritebackSet ℕ T.associativity)) : Prop where
  must : d.must.Describes T (WritebackSet.set '' K)
  may : d.may.Describes T (WritebackSet.set '' K)
  tracks : d.Tracks
  follows : ∀ c ∈ K, d.Follows ∅ c

/-- Unknown lines are dirty only while the may analysis has unknown lines. -/
def Bounded (T : CacheTraits) (d : DirtinessAnalysis) : Prop :=
  d.implicitDirty = true → d.may.ageOfImplicitTags < T.associativity

/-- The report of an access foresees what it does to the set. -/
def ReportCovers {A : ℕ} (report : Option UpdateReport) (c c' : WritebackSet ℕ A) : Prop :=
  ∀ wbPossible dirtifyingStore, report = some (.writeback wbPossible dirtifyingStore) →
    (WritebackSet.WritesBack c c' → wbPossible = true) ∧
      (WritebackSet.TurnsDirty c c' → dirtifyingStore = true)

section Lookups

variable {A : ℕ} {fresh : Set ℕ} {d : DirtinessAnalysis} {c : WritebackSet ℕ A}

theorem classificationAt_some {t : ℕ} {dcl : DirtinessClassification}
    (h : d.dirtiness.find? t = some dcl) : d.classificationAt t = dcl := by
  rw [classificationAt, h, Option.getD_some]

theorem classificationAt_none {t : ℕ} (h : d.dirtiness.find? t = none) :
    d.classificationAt t = d.implicit := by
  rw [classificationAt, h, Option.getD_none]

theorem Tracks.proper_at (h : d.Tracks) (t : ℕ) : Proper (d.classificationAt t) := by
  cases hfind : d.dirtiness.find? t with
  | none => exact classificationAt_none hfind ▸ proper_implicit d
  | some dcl => exact classificationAt_some hfind ▸ h.proper t dcl hfind

theorem find?_of_dirty {t : ℕ} (h : d.classificationAt t = dclDirty) :
    d.dirtiness.find? t = some dclDirty := by
  cases hfind : d.dirtiness.find? t with
  | none => exact absurd ((classificationAt_none hfind).symm.trans h) d.implicit_ne_dirty
  | some dcl => rw [← h, classificationAt_some hfind]

theorem Follows.notMem_of_clean (h : d.Follows fresh c) {t : ℕ}
    (hclean : d.classificationAt t = dclClean) : t ∉ c.dirty := by
  cases hfind : d.dirtiness.find? t with
  | none =>
    intro hdirty
    have himplicit := implicit_eq_clean ((classificationAt_none hfind).symm.trans hclean)
    rw [(h.implicit t hdirty hfind).1] at himplicit
    cases himplicit
  | some dcl =>
    apply h.clean t
    rw [hfind, ← hclean, classificationAt_some hfind]

@[simp] theorem track_must (d : DirtinessAnalysis) (t : ℕ) : (d.track t).must = d.must := by
  unfold track
  split <;> rfl

@[simp] theorem track_may (d : DirtinessAnalysis) (t : ℕ) : (d.track t).may = d.may := by
  unfold track
  split <;> rfl

@[simp] theorem track_implicitDirty (d : DirtinessAnalysis) (t : ℕ) :
    (d.track t).implicitDirty = d.implicitDirty := by
  unfold track
  split <;> rfl

/-- Tracking a tag makes its classification explicit. -/
theorem find?_track (d : DirtinessAnalysis) (t u : ℕ) :
    (d.track t).dirtiness.find? u =
      if u = t then some (d.classificationAt t) else d.dirtiness.find? u := by
  unfold track
  split
  · next hfind =>
    rw [OrderedMap.find?_insert, classificationAt_none hfind]
    split_ifs with h h' h'
    · rfl
    · exact absurd h.symm h'
    · exact absurd h'.symm h
    · rfl
  · next dcl hfind =>
    split_ifs with h
    · rw [h, hfind, classificationAt_some hfind]
    · rfl

theorem classificationAt_track (d : DirtinessAnalysis) (t : ℕ) :
    (d.track t).classificationAt t = d.classificationAt t := by
  apply classificationAt_some
  rw [find?_track, if_pos rfl]

end Lookups

/-! ## Bringing the entries up to date -/

theorem find?_weaken (m : OrderedMap ℕ DirtinessClassification) (v t : ℕ) :
    (weaken m v).find? t =
      if t = v ∧ m.find? t = some dclDirty then some dclUnknown else m.find? t := by
  unfold weaken
  split_ifs with hv ht ht
  · rw [ht.1, OrderedMap.find?_insert_self]
  · apply OrderedMap.find?_insert_of_ne
    rintro rfl
    exact ht ⟨rfl, hv⟩
  · exact absurd (ht.1 ▸ ht.2) hv
  · rfl

/-- The tags the must analysis reports are no longer dirty for sure. -/
theorem find?_foldl_weaken (tags : List ℕ) (m : OrderedMap ℕ DirtinessClassification) (t : ℕ) :
    (tags.foldl weaken m).find? t =
      if t ∈ tags ∧ m.find? t = some dclDirty then some dclUnknown else m.find? t := by
  induction tags generalizing m with
  | nil => simp
  | cons v tags ih =>
    rw [List.foldl_cons, ih, find?_weaken]
    by_cases hdirty : m.find? t = some dclDirty
    · have hne : ¬ some dclUnknown = some dclDirty := by decide
      by_cases htv : t = v
      · subst htv
        simp only [hdirty, hne, and_true, and_false, if_true, if_false, List.mem_cons, true_or]
      · simp only [hdirty, htv, false_and, false_or, if_false, List.mem_cons]
    · simp only [hdirty, and_false, if_false]

/-- Dropping entries fails only if lines may be dirty without one. -/
theorem dropEvicted_ok {d : DirtinessAnalysis} {tags : List ℕ}
    (h : tags ≠ [] → d.implicitDirty = false) : ∃ d', d.dropEvicted tags = .ok d' := by
  induction tags generalizing d with
  | nil => exact ⟨d, rfl⟩
  | cons v tags ih =>
    have hfalse := h (List.cons_ne_nil v tags)
    rw [dropEvicted, if_neg (by simp [hfalse])]
    exact ih fun _ => hfalse

theorem dropEvicted_spec {d d' : DirtinessAnalysis} {tags : List ℕ}
    (h : d.dropEvicted tags = .ok d') : d'.must = d.must ∧ d'.may = d.may ∧
      d'.implicitDirty = d.implicitDirty ∧
      ∀ t, d'.dirtiness.find? t = if t ∈ tags then none else d.dirtiness.find? t := by
  induction tags generalizing d with
  | nil =>
    cases h
    simp
  | cons v tags ih =>
    rw [dropEvicted] at h
    split_ifs at h
    obtain ⟨hmust, hmay, himplicit, hfind⟩ := ih h
    refine ⟨hmust, hmay, himplicit, fun t => ?_⟩
    rw [hfind]
    by_cases ht : t = v <;> simp [ht]

/-- What is left of an entry: it is dropped, weakened or kept. -/
theorem incorporate_spec {d d' : DirtinessAnalysis} {mustTags mayTags : List ℕ}
    {unknowns introduced : Bool}
    (h : d.incorporateMustMayUpdates T (some (.lruMaxAge mustTags))
      (some (.lruMinAge mayTags unknowns introduced)) = .ok d') :
    d'.must = d.must ∧ d'.may = d.may ∧ d'.implicitDirty = (d.implicitDirty && !unknowns) ∧
      ∀ t, d'.dirtiness.find? t = none ∧ (d.dirtiness.find? t = none ∨ t ∈ mayTags ∨
          unknowns = true ∧ (d.dirtiness.find? t = some dclClean ∨
            d.may.getMinAge t = T.associativity)) ∨
        (d'.dirtiness.find? t = d.dirtiness.find? t ∧ ¬ (t ∈ mustTags ∧
          d.dirtiness.find? t = some dclDirty)) ∨
        d'.dirtiness.find? t = some dclUnknown := by
  unfold incorporateMustMayUpdates at h
  simp only [mayEvicted, mustEvicted, ok_bind] at h
  obtain ⟨hmust, hmay, himplicit, hfind⟩ := dropEvicted_spec h
  have hkept (t : ℕ) : (if unknowns then d.evictUnknowns T else d).dirtiness.find? t =
      if unknowns = true then (d.dirtiness.find? t).filter fun dcl =>
        dcl ≠ dclClean && d.may.getMinAge t ≠ T.associativity else d.dirtiness.find? t := by
    cases unknowns with
    | true => exact OrderedMap.find?_filter _ _ t
    | false => rfl
  refine ⟨?_, ?_, ?_, fun t => ?_⟩
  · rw [hmust]
    cases unknowns <;> rfl
  · rw [hmay]
    cases unknowns <;> rfl
  · rw [himplicit]
    cases unknowns <;> simp [evictUnknowns]
  · have hfind := hfind t
    dsimp only at hfind
    rw [find?_foldl_weaken, hkept] at hfind
    rw [hfind]
    split_ifs with hmayTag hunknowns hweak hweak
    · exact .inl ⟨rfl, .inr (.inl hmayTag)⟩
    · exact .inr (.inr rfl)
    · cases hd : d.dirtiness.find? t with
      | none => exact .inl ⟨rfl, .inl rfl⟩
      | some dcl =>
        rw [hd] at hweak
        by_cases hp : dcl ≠ dclClean ∧ d.may.getMinAge t ≠ T.associativity
        · have hfilter : (some dcl).filter (fun dcl =>
              dcl ≠ dclClean && d.may.getMinAge t ≠ T.associativity) = some dcl := by
            simp [Option.filter, hp.1, hp.2]
          rw [hfilter] at hweak ⊢
          exact .inr (.inl ⟨rfl, hweak⟩)
        · have hfilter : (some dcl).filter (fun dcl =>
              dcl ≠ dclClean && d.may.getMinAge t ≠ T.associativity) = none := by
            simp only [Option.filter]
            rw [if_neg]
            simpa using hp
          refine .inl ⟨hfilter, .inr (.inr ⟨hunknowns, ?_⟩)⟩
          by_cases hclean : dcl = dclClean
          · exact .inl (congrArg some hclean)
          · exact .inr (not_not.mp fun hage => hp ⟨hclean, hage⟩)
    · exact .inr (.inr rfl)
    · exact .inr (.inl ⟨rfl, hweak⟩)

/-- The set `c` is the one after an access for which the must and the may analysis
have been updated and have reported these evictions. -/
structure Accessed (fresh : Set ℕ) (mustTags mayTags : List ℕ) (unknowns : Bool)
    (d : DirtinessAnalysis) (c : WritebackSet ℕ T.associativity) : Prop where
  dirty : ∀ t, d.dirtiness.find? t = some dclDirty → t ∈ mustTags ∨ t ∈ c.dirty
  clean : ∀ t, d.dirtiness.find? t = some dclClean → t ∉ c.dirty
  implicit : ∀ t ∈ c.dirty, d.dirtiness.find? t = none → d.implicitDirty = true ∧
    (t ∈ fresh ∨ d.may.ageOfImplicitTags ≤ c.set.age t)
  may : d.may.Bounds c.set
  evicted : ∀ t ∈ mayTags, t ∉ c.set
  unknowns_evicted : unknowns = true → d.may.ageOfImplicitTags = T.associativity ∧ fresh = ∅

theorem Accessed.follows {fresh : Set ℕ} {mustTags mayTags : List ℕ} {unknowns introduced : Bool}
    {d d' : DirtinessAnalysis} {c : WritebackSet ℕ T.associativity}
    (h : Accessed fresh mustTags mayTags unknowns d c)
    (hd : d.incorporateMustMayUpdates T (some (.lruMaxAge mustTags))
      (some (.lruMinAge mayTags unknowns introduced)) = .ok d') : d'.Follows fresh c := by
  obtain ⟨_, hmay, himplicit, hfind⟩ := incorporate_spec hd
  refine ⟨fun t ht => ?_, fun t ht => ?_, fun t hdirty hnone => ?_⟩
  · rcases hfind t with ⟨hnone, _⟩ | ⟨hkept, hweak⟩ | hunknown
    · rw [hnone] at ht
      cases ht
    · rw [hkept] at ht
      exact (h.dirty t ht).resolve_left fun hmust => hweak ⟨hmust, ht⟩
    · rw [hunknown] at ht
      cases ht
  · rcases hfind t with ⟨hnone, _⟩ | ⟨hkept, _⟩ | hunknown
    · rw [hnone] at ht
      cases ht
    · exact h.clean t (hkept ▸ ht)
    · rw [hunknown] at ht
      cases ht
  · have hin := c.mem_of_dirty t hdirty
    have hlt := CacheSet.age_lt_ways hin
    -- only unknown lines are left without an entry, and they have not all been evicted
    have hold : d.dirtiness.find? t = none := by
      rcases hfind t with ⟨_, hold | hmayTag | ⟨_, hclean | hage⟩⟩ | ⟨hkept, _⟩ | hunknown
      · exact hold
      · exact absurd hin (h.evicted t hmayTag)
      · exact absurd hdirty (h.clean t hclean)
      · have hbound := h.may t hin
        omega
      · rw [← hkept, hnone]
      · rw [hnone] at hunknown
        cases hunknown
    obtain ⟨hd, hage⟩ := h.implicit t hdirty hold
    rw [himplicit, hmay, hd]
    cases hu : unknowns with
    | false => exact ⟨rfl, hage⟩
    | true =>
      obtain ⟨hways, rfl⟩ := h.unknowns_evicted hu
      have hage := hage.resolve_left (Set.notMem_empty t)
      omega

theorem tracks_of_incorporate {mustTags mayTags : List ℕ} {unknowns introduced : Bool}
    {d d' : DirtinessAnalysis} (hproper : ∀ t dcl, d.dirtiness.find? t = some dcl → Proper dcl)
    (hstored : ∀ t, d.dirtiness.find? t = some dclDirty →
      t ∈ mustTags ∨ ∃ age, d.must.Stores t age)
    (hd : d.incorporateMustMayUpdates T (some (.lruMaxAge mustTags))
      (some (.lruMinAge mayTags unknowns introduced)) = .ok d') : d'.Tracks := by
  obtain ⟨hmust, _, _, hfind⟩ := incorporate_spec hd
  refine ⟨fun t dcl ht => ?_, fun t ht => ?_⟩
  · rcases hfind t with ⟨hnone, _⟩ | ⟨hkept, _⟩ | hunknown
    · rw [hnone] at ht
      cases ht
    · exact hproper t dcl (hkept ▸ ht)
    · rw [hunknown] at ht
      cases ht
      exact .inr (.inr rfl)
  · rcases hfind t with ⟨hnone, _⟩ | ⟨hkept, hweak⟩ | hunknown
    · rw [hnone] at ht
      cases ht
    · rw [hkept] at ht
      rw [hmust]
      exact (hstored t ht).resolve_left fun hmem => hweak ⟨hmem, ht⟩
    · rw [hunknown] at ht
      cases ht

/-! ## The test for a victim -/

theorem findDirtyVictim_ok {must : LruMaxAgeAbstractCache}
    {K : Set (CacheSet ℕ T.associativity)} (h : must.Describes T K)
    (entries : List (ℕ × DirtinessClassification)) :
    ∃ b, findDirtyVictim T must entries = .ok b := by
  induction entries with
  | nil => exact ⟨false, rfl⟩
  | cons e entries ih =>
    have hage : ∃ n, must.getMaxAge T e.1 = .ok n := by
      rcases h.getMaxAge_eq e.1 with ⟨age, _, hage⟩ | hage
      · exact ⟨age, hage⟩
      · exact ⟨_, hage⟩
    obtain ⟨n, hn⟩ := hage
    rw [findDirtyVictim, hn, ok_bind]
    split_ifs
    · exact ih
    · exact ⟨true, rfl⟩
    · exact ih

/-- An entry that is not clean and not in the must cache is found. -/
theorem findDirtyVictim_spec {must : LruMaxAgeAbstractCache}
    {entries : List (ℕ × DirtinessClassification)} {b : Bool}
    (h : findDirtyVictim T must entries = .ok b) {e : ℕ × DirtinessClassification}
    (he : e ∈ entries) (hclean : e.2 ≠ dclClean)
    (hage : must.getMaxAge T e.1 = .ok T.associativity) : b = true := by
  induction entries with
  | nil => exact absurd he List.not_mem_nil
  | cons x entries ih =>
    rw [findDirtyVictim] at h
    rcases List.mem_cons.mp he with rfl | he
    · rw [if_neg hclean, hage, ok_bind, if_pos rfl] at h
      cases h
      rfl
    · split_ifs at h
      · exact ih h he
      · obtain ⟨n, _, h⟩ := bind_eq_ok.mp h
        split_ifs at h
        · cases h
          rfl
        · exact ih h he

/-- The test finds every dirty line that is no longer in the set. -/
theorem existsDirtyVictim_spec {fresh : Set ℕ} {d d₀ : DirtinessAnalysis} {b : Bool}
    {c c' : WritebackSet ℕ T.associativity} (hc : d₀.Follows fresh c)
    (hfind : ∀ t, t ∈ c.dirty → d.dirtiness.find? t = none → d₀.dirtiness.find? t = none)
    (hclean : ∀ t, d.dirtiness.find? t = some dclClean → t ∉ c.dirty)
    (himplicit : d.implicitDirty = d₀.implicitDirty)
    (hmust : d.must.Describes T {c'.set}) (h : d.existsDirtyVictim T = .ok b)
    (hwb : WritebackSet.WritesBack c c') : b = true := by
  obtain ⟨v, hv, hout⟩ := hwb
  unfold existsDirtyVictim at h
  split_ifs at h with hd
  · cases h
    rfl
  · cases hentry : d.dirtiness.find? v with
    | none =>
      have := (hc.implicit v hv (hfind v hv hentry)).1
      exact absurd (himplicit.trans this) hd
    | some dcl =>
      apply findDirtyVictim_spec h (OrderedMap.mem_entries_iff.mpr hentry)
      · rintro rfl
        exact hclean v hentry hv
      · rcases hmust.getMaxAge_eq v with ⟨age, hstores, _⟩ | hage
        · exact absurd (hmust.mem_of_stores rfl hstores) hout
        · exact hage

end DirtinessAnalysis

end Llvmta
