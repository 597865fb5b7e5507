import Llvmta.Library.LruInterference
import Llvmta.Memory.LruMaxAgeSoundness
import Llvmta.Memory.LruMinAgeSoundness

/-!
# Classification in a cache shared with other cores

The analyses of one core know nothing of the accesses of the others. `classify`
makes up for that by adding to an age the number `CNN` of recorded addresses of the
other cores that are in the set under another tag. What is below the associativity
then is a hit whatever the other cores do. What is not is taken for a miss, although
the other cores need not interfere.
-/

namespace Llvmta

open Checked Lru

variable {T : CacheTraits}

namespace Multicore

/-- The recorded addresses of the other cores, as often as `classify` visits them. -/
def foreignAddresses (M : Multicore) : List ℕ :=
  M.coreinfo.zipIdx.flatMap fun (core, i) =>
    if i = M.currentCore then [] else core.flatMap fun entry => (M.functiontofs entry).flatten

/-- The tags of these addresses in the set `index`. -/
def foreignTags (M : Multicore) (T : CacheTraits) (index : ℕ) : Finset ℕ :=
  ((M.foreignAddresses.filter fun address => getindex T address = index).map (getTag T)).toFinset

theorem mem_foreignTags {M : Multicore} {index tag : ℕ} : tag ∈ M.foreignTags T index ↔
    ∃ address ∈ M.foreignAddresses, getindex T address = index ∧ getTag T address = tag := by
  simp [foreignTags, and_assoc]

theorem conflicts_eq {M : Multicore} (hM : M.liangY = true) (hlevel : 1 < T.level)
    (tag index : ℕ) : M.conflicts T tag index = toUnsigned (M.foreignAddresses.countP fun address =>
      getindex T address == index && getTag T address != tag) := by
  rw [conflicts, if_pos (by simp [hM, hlevel]), foreignAddresses, List.countP_flatMap]
  congr 2
  apply List.map_congr_left
  rintro ⟨core, i⟩ _
  dsimp only [Function.comp]
  split_ifs with hi
  · rfl
  · rw [List.countP_flatMap]
    congr 1
    apply List.map_congr_left
    intro entry _
    exact (List.countP_flatten).symm

/-- Every line of the other cores but the classified one is counted. -/
theorem card_erase_foreignTags_le (M : Multicore) (tag index : ℕ) :
    ((M.foreignTags T index).erase tag).card ≤ M.foreignAddresses.countP fun address =>
      getindex T address == index && getTag T address != tag := by
  rw [List.countP_eq_length_filter]
  have hsub : (M.foreignTags T index).erase tag ⊆ ((M.foreignAddresses.filter fun address =>
      getindex T address == index && getTag T address != tag).map (getTag T)).toFinset := by
    intro t ht
    obtain ⟨hne, ht⟩ := Finset.mem_erase.mp ht
    obtain ⟨address, haddress, hindex, rfl⟩ := mem_foreignTags.mp ht
    apply List.mem_toFinset.mpr
    apply List.mem_map_of_mem
    exact List.mem_filter.mpr ⟨haddress, by simp [hindex, hne]⟩
  apply (Finset.card_le_card hsub).trans
  exact (List.toFinset_card_le _).trans (List.length_map _).le

/-- The addresses that the other cores have recorded do not overflow a sum with an age. -/
def Countable (M : Multicore) (T : CacheTraits) : Prop :=
  T.associativity + M.foreignAddresses.length < 2 ^ 32

/-- The recorded lines of the other cores do not outnumber `CNN`. -/
theorem Countable.conflicts {M : Multicore} (h : M.Countable T) (hM : M.liangY = true)
    (hlevel : 1 < T.level) (tag index : ℕ) :
    ((M.foreignTags T index).erase tag).card ≤ M.conflicts T tag index ∧
      T.associativity + M.conflicts T tag index < 2 ^ 32 := by
  have hle := List.countP_le_length (l := M.foreignAddresses) (p := fun address =>
    getindex T address == index && getTag T address != tag)
  have hsmall : T.associativity + M.foreignAddresses.length < 2 ^ 32 := h
  rw [conflicts_eq hM hlevel, toUnsigned_of_lt (by omega)]
  exact ⟨M.card_erase_foreignTags_le tag index, by omega⟩

end Multicore

/-! ## The must analysis -/

namespace LruMaxAgeAbstractCache

def accesses (T : CacheTraits) : Accesses (analysis T) where
  lines
    | .update tag _ _, x => x = some tag
    | .potentialUpdate _, _ => True
  concrete_iff op c c' := by
    cases op with
    | update tag wantReport assumption => simp [analysis, CacheSet.accessed]
    | potentialUpdate wantReport =>
      constructor
      · rintro (rfl | ⟨tag, rfl⟩)
        · exact ⟨none, trivial, rfl⟩
        · exact ⟨some tag, trivial, rfl⟩
      · rintro ⟨x, _, rfl⟩
        cases x with
        | none => exact .inl rfl
        | some tag => exact .inr ⟨tag, rfl⟩

/-- The must analysis in a set that is shared with the cores of `M`. -/
abbrev shared (T : CacheTraits) (M : Multicore) (index : ℕ) :=
  sharedAnalysis (analysis T) (accesses T) (M.foreignTags T index)

/-- When a miss is only claimed of a block that is not in the shared set. -/
def MissesSafely (T : CacheTraits) (M : Multicore) (s : LruMaxAgeAbstractCache) (tag index : ℕ) :
    Prop :=
  (∀ age, s.Stores tag age → age + M.conflicts T tag index < T.associativity) ∧
    (tag ∈ M.foreignTags T index → (∃ age, s.Stores tag age) ∨ s.size ≠ T.associativity)

/-- The classifications of a state that stands for own sets. -/
theorem Describes.classify_eq {s : LruMaxAgeAbstractCache}
    {K : Set (CacheSet ℕ T.associativity)} (h : Describes T s K) {M : Multicore} {tag index : ℕ}
    (hsmall : T.associativity + M.conflicts T tag index < 2 ^ 32) :
    (∃ age, s.Stores tag age ∧ age < T.associativity ∧ (∀ c ∈ K, c.Within tag age) ∧
      (∀ age', s.Stores tag age' → age' = age) ∧
      classify T M s tag index = .ok (if T.associativity ≤ age + M.conflicts T tag index then
        .clMiss else .clHit)) ∨
    (∀ age, ¬ s.Stores tag age) ∧ (s.size = T.associativity → ∀ c ∈ K, tag ∉ c) ∧
      classify T M s tag index = .ok (if s.size = T.associativity then .clMiss else .clUnknown) := by
  obtain ⟨_, l, hs, hw, hK⟩ := h
  by_cases hfound : ∃ e ∈ l, e.tag = tag
  · obtain ⟨e, he, rfl⟩ := hfound
    have hage := hw.age_lt e he
    refine .inl ⟨e.age, (stores_iff hs e.tag e.age).mpr he, hage, fun c hc => hK c hc e he, ?_, ?_⟩
    · intro age' h'
      exact congrArg AgedTag.age (hw.distinct.eq_of_tag ((stores_iff hs e.tag age').mp h') he rfl)
    · rw [classify_found hs hw.distinct he, toUnsigned_of_lt (by omega)]
  · have hne : ∀ e ∈ l, e.tag ≠ tag := fun e he h => hfound ⟨e, he, h⟩
    refine .inr ⟨fun age hstores => hne _ ((stores_iff hs tag age).mp hstores) rfl, ?_, ?_⟩
    · intro hsize c hc hmem
      have := (hK c hc).length_lt hw.distinct hmem hne
      rw [hs.size_eq] at hsize
      omega
    · rw [classify_absent hs hne, hs.size_eq]

theorem mustRun_shared (hA : 1 ≤ T.associativity) {M : Multicore} (hM : M.liangY = true)
    (hlevel : 1 < T.level) (hcount : M.Countable T) (index : ℕ) (r : Collecting.Run Bool MustOp)
    (hr : (analysis T).Every (Legal T) r) :
    ∃ s, (shared T M index).eval r = .ok s ∧ ∀ tag,
      (classify T M s tag index = .ok .clHit → ∀ p ∈ (shared T M index).collect r, tag ∈ p.2) ∧
      ((classify T M s tag index = .ok .clMiss →
        ∀ p ∈ (shared T M index).collect r, tag ∉ p.2) ↔ MissesSafely T M s tag index) := by
  obtain ⟨s, hs, hdesc⟩ := Collecting.Analysis.Run.sound (Describes T) (describes_new T)
    (describes_step hA)
    (fun s t K L hs ht => (describes_join s t K L hs ht).imp fun u h => ⟨h.1, h.2.1⟩) r hr
  obtain ⟨c₀, hc₀⟩ := hdesc.1
  refine ⟨s, (eval_sharedAnalysis r).trans hs, fun tag => ?_⟩
  obtain ⟨hforeign, hsmall⟩ := hcount.conflicts hM hlevel tag index
  rcases hdesc.classify_eq hsmall with
    ⟨age, hstores, hage, hwithin, hunique, hclassify⟩ | ⟨hnone, hfull, hclassify⟩
  · rw [hclassify]
    refine ⟨fun hhit p hp => ?_, fun hmiss => ⟨fun age' hage' => ?_, fun _ => .inl ⟨age, hstores⟩⟩,
      fun hsafe hmiss => ?_⟩
    · obtain ⟨hown, hinter⟩ := collect_sharedAnalysis r p hp
      obtain ⟨hmem, hle⟩ := hwithin p.1 hown
      split_ifs at hhit with hlarge
      · cases hhit
      · exact (hinter.behind hmem (by omega)).1
    · rw [hunique age' hage']
      by_contra hlarge
      rw [if_pos (Nat.le_of_not_lt hlarge)] at hmiss
      exact hmiss rfl (c₀, c₀) (mem_collect_sharedAnalysis r c₀ hc₀ c₀ .refl) (hwithin c₀ hc₀).1
    · have hlt := hsafe.1 age hstores
      rw [if_neg (Nat.not_le.mpr hlt)] at hmiss
      cases hmiss
  · rw [hclassify]
    refine ⟨fun hhit => ?_, fun hmiss => ⟨fun age hage => absurd hage (hnone age), fun hF => ?_⟩,
      fun hsafe hmiss p hp => ?_⟩
    · split_ifs at hhit <;> cases hhit
    · right
      intro hsize
      rw [if_pos hsize] at hmiss
      have hloaded : Foreign (M.foreignTags T index) c₀ (c₀.access tag) :=
        Relation.ReflTransGen.single ⟨tag, hF, rfl⟩
      exact hmiss rfl _ (mem_collect_sharedAnalysis r c₀ hc₀ _ hloaded)
        (c₀.mem_access_self tag hA)
    · split_ifs at hmiss with hsize
      · obtain ⟨hown, hinter⟩ := collect_sharedAnalysis r p hp
        have hF : tag ∉ M.foreignTags T index := by
          intro hF
          rcases hsafe.2 hF with ⟨age, hage⟩ | hne
          · exact hnone age hage
          · exact hne hsize
        intro hmem
        exact hfull hsize p.1 hown (hinter.younger_subset hF hmem).1
      · cases hmiss

end LruMaxAgeAbstractCache

/-! ## The may analysis -/

namespace LruMinAgeAbstractCache

def accesses (T : CacheTraits) (index : ℕ) : Accesses (analysis T index) where
  lines
    | .update tag _ _, x => x = some tag
    | .potentialUpdate itv _, x => x = none ∨
      ∃ addr ∈ itv, getindex T addr = index ∧ x = some (getTag T addr)
  concrete_iff op c c' := by
    cases op with
    | update tag wantReport assumption => simp [analysis, CacheSet.accessed]
    | potentialUpdate itv wantReport =>
      constructor
      · rintro (rfl | ⟨addr, haddr, hindex, rfl⟩)
        · exact ⟨none, .inl rfl, rfl⟩
        · exact ⟨some _, .inr ⟨addr, haddr, hindex, rfl⟩, rfl⟩
      · rintro ⟨x, rfl | ⟨addr, haddr, hindex, rfl⟩, rfl⟩
        · exact .inl rfl
        · exact .inr ⟨addr, haddr, hindex, rfl⟩

/-- The may analysis in a set that is shared with the cores of `M`. -/
abbrev shared (T : CacheTraits) (M : Multicore) (index : ℕ) :=
  sharedAnalysis (analysis T index) (accesses T index) (M.foreignTags T index)

/-- Every run describes some set. -/
theorem collect_nonempty {index : ℕ} (r : Collecting.Run Bool MayOp) :
    ((analysis T index).collect r).Nonempty := by
  induction r with
  | start assumeAnEmptyCache =>
    refine ⟨CacheSet.empty, ?_⟩
    cases assumeAnEmptyCache <;> simp [Collecting.Analysis.collect, analysis]
  | step r op ih =>
    obtain ⟨c, hc⟩ := ih
    cases op with
    | update tag wantReport assumption => exact ⟨c.access tag, c, hc, rfl⟩
    | potentialUpdate itv wantReport => exact ⟨c, c, hc, .inl rfl⟩
  | join r₁ r₂ ih₁ _ => exact ih₁.mono Set.subset_union_left

/-- A miss is what reaches the associativity together with `CNN`. -/
theorem WellFormed.classify_eq_miss {s : LruMinAgeAbstractCache} (hw : WellFormed T s)
    {M : Multicore} {tag index : ℕ} (hsmall : T.associativity + M.conflicts T tag index < 2 ^ 32) :
    classify T M s tag index = .clMiss ↔
      T.associativity ≤ getMinAge s tag + M.conflicts T tag index := by
  have hle := hw.getMinAge_le tag
  have himplicit := hw.implicit_le
  unfold classify
  dsimp only
  rw [toUnsigned_of_lt (by omega)]
  split_ifs with hlt
  · constructor
    · intro h
      cases h
    · intro h
      omega
  · unfold getMinAge at hle ⊢
    cases hfind : lookup s.explicitTags tag with
    | none =>
      simp only [hfind, true_iff] at hle ⊢
      omega
    | some e =>
      simp only [hfind] at hle ⊢
      rw [toUnsigned_of_lt (by omega)]
      split_ifs with hage
      · simp [hage]
      · simp only [hage, iff_false]
        intro h
        cases h

theorem classify_ne_hit (M : Multicore) (s : LruMinAgeAbstractCache) (tag index : ℕ) :
    classify T M s tag index ≠ .clHit := by
  unfold classify
  dsimp only
  split_ifs
  · decide
  · split
    · split_ifs <;> decide
    · decide

theorem mayRun_shared (hA : 1 ≤ T.associativity) {M : Multicore} (hM : M.liangY = true)
    (hlevel : 1 < T.level) (hcount : M.Countable T) (index : ℕ) (r : Collecting.Run Bool MayOp)
    {s : LruMinAgeAbstractCache} (hs : (shared T M index).eval r = .ok s) (tag : ℕ) :
    classify T M s tag index ≠ .clHit ∧
      ((classify T M s tag index = .clMiss → ∀ p ∈ (shared T M index).collect r, tag ∉ p.2) ↔
        getMinAge s tag + M.conflicts T tag index < T.associativity ∨
          tag ∉ M.foreignTags T index ∧ ∀ c ∈ (analysis T index).collect r, tag ∉ c) ∧
      (T.associativity ≤ getMinAge s tag → ∀ c ∈ (analysis T index).collect r, tag ∉ c) := by
  obtain ⟨hw, hK⟩ := Collecting.Analysis.Run.sound_of_ok (S := analysis T index) (Describes T)
    (describes_new index) describes_step describes_join r s ((eval_sharedAnalysis r).symm.trans hs)
  obtain ⟨_, hsmall⟩ := hcount.conflicts hM hlevel tag index
  obtain ⟨c₀, hc₀⟩ : ((analysis T index).collect r).Nonempty := collect_nonempty r
  rw [hw.classify_eq_miss hsmall]
  refine ⟨classify_ne_hit M s tag index, ⟨fun hmiss => ?_, ?_⟩, fun hage c hc hmem => ?_⟩
  · by_cases hlt : getMinAge s tag + M.conflicts T tag index < T.associativity
    · exact .inl hlt
    · have hmiss := hmiss (Nat.le_of_not_lt hlt)
      refine .inr ⟨fun hF => ?_, fun c hc => ?_⟩
      · have hloaded : Foreign (M.foreignTags T index) c₀ (c₀.access tag) :=
          Relation.ReflTransGen.single ⟨tag, hF, rfl⟩
        exact hmiss _ (mem_collect_sharedAnalysis r c₀ hc₀ _ hloaded) (c₀.mem_access_self tag hA)
      · exact hmiss (c, c) (mem_collect_sharedAnalysis r c hc c .refl)
  · rintro (hlt | ⟨hF, hown⟩) hmiss p hp hmem
    · omega
    · obtain ⟨hp, hinter⟩ := collect_sharedAnalysis r p hp
      exact hown p.1 hp (hinter.younger_subset hF hmem).1
  · have hbound := hK c hc tag hmem
    have hlt := CacheSet.age_lt_ways hmem
    omega

end LruMinAgeAbstractCache

/-! ## Both analyses -/

/-- A hit is in the shared set however the accesses of the cores are interleaved. A miss
is not, exactly when no stored bound makes it one and no other core has recorded the
block, or, for the may analysis, when it is not in the own set either. -/
theorem sharedRun_sound (hA : 1 ≤ T.associativity) {M : Multicore} (hM : M.liangY = true)
    (hlevel : 1 < T.level) (hcount : M.Countable T) (index : ℕ) :
    (∀ r : Collecting.Run Bool LruMaxAgeAbstractCache.MustOp,
      (LruMaxAgeAbstractCache.analysis T).Every (LruMaxAgeAbstractCache.Legal T) r →
      ∃ s, (LruMaxAgeAbstractCache.shared T M index).eval r = .ok s ∧ ∀ tag,
        (s.classify T M tag index = .ok .clHit →
          ∀ p ∈ (LruMaxAgeAbstractCache.shared T M index).collect r, tag ∈ p.2) ∧
        ((s.classify T M tag index = .ok .clMiss →
          ∀ p ∈ (LruMaxAgeAbstractCache.shared T M index).collect r, tag ∉ p.2) ↔
            LruMaxAgeAbstractCache.MissesSafely T M s tag index)) ∧
    ∀ (r : Collecting.Run Bool LruMinAgeAbstractCache.MayOp) (s : LruMinAgeAbstractCache),
      (LruMinAgeAbstractCache.shared T M index).eval r = .ok s → ∀ tag,
        s.classify T M tag index ≠ .clHit ∧
        ((s.classify T M tag index = .clMiss →
          ∀ p ∈ (LruMinAgeAbstractCache.shared T M index).collect r, tag ∉ p.2) ↔
            s.getMinAge tag + M.conflicts T tag index < T.associativity ∨
              tag ∉ M.foreignTags T index ∧
                ∀ c ∈ (LruMinAgeAbstractCache.analysis T index).collect r, tag ∉ c) ∧
        (T.associativity ≤ s.getMinAge tag →
          ∀ c ∈ (LruMinAgeAbstractCache.analysis T index).collect r, tag ∉ c) := by
  constructor
  · intro r hr
    exact LruMaxAgeAbstractCache.mustRun_shared hA hM hlevel hcount index r hr
  · intro r s hs tag
    exact LruMinAgeAbstractCache.mayRun_shared hA hM hlevel hcount index r hs tag

/-- Another core has recorded one address, of block 5 in set 1. -/
def oneConflict : Multicore where
  liangY := true
  currentCore := 0
  coreinfo := [["main"], ["task"]]
  functiontofs entry := if entry = "task" then [[336]] else []

/-- Block 8, accessed last, is a hit. -/
theorem sharedRun_sound_oneConflict :
    let T : CacheTraits := ⟨16, 2, 4, false, false, 2, 5⟩
    let r : Collecting.Run Bool LruMaxAgeAbstractCache.MustOp :=
      .step (.step (.start false) (.update 7 false .clUnknown)) (.update 8 false .clUnknown)
    ∀ p ∈ (LruMaxAgeAbstractCache.shared T oneConflict 1).collect r, 8 ∈ p.2 := by
  intro T r
  have hr : (LruMaxAgeAbstractCache.analysis T).Every (LruMaxAgeAbstractCache.Legal T) r :=
    ⟨⟨trivial, fun _ _ h => absurd h (by decide)⟩, fun _ _ h => absurd h (by decide)⟩
  have hcount : oneConflict.Countable T := (by decide : 2 + 1 < 2 ^ 32)
  obtain ⟨s, hs, hsound⟩ := (sharedRun_sound (by decide) rfl (by decide) hcount 1).1 r hr
  have heval : (LruMaxAgeAbstractCache.shared T oneConflict 1).eval r = .ok ⟨[8, 7], [0, 1], 2⟩ :=
    rfl
  obtain rfl : s = ⟨[8, 7], [0, 1], 2⟩ := Except.ok.inj (hs.symm.trans heval)
  exact (hsound 8).1 (by decide)

/-- Without any access of the other core, both analyses take the cached block 7 for a miss. -/
theorem classify_miss_unsound :
    let T : CacheTraits := ⟨16, 2, 4, false, false, 2, 5⟩
    let must : Collecting.Run Bool LruMaxAgeAbstractCache.MustOp :=
      .step (.step (.start true) (.update 7 false .clUnknown)) (.update 8 false .clUnknown)
    let may : Collecting.Run Bool LruMinAgeAbstractCache.MayOp :=
      .step (.step (.start true) (.update 7 false .clUnknown)) (.update 8 false .clUnknown)
    (∃ s, (LruMaxAgeAbstractCache.shared T oneConflict 1).eval must = .ok s ∧
      s.classify T oneConflict 7 1 = .ok .clMiss ∧
      ∃ p ∈ (LruMaxAgeAbstractCache.shared T oneConflict 1).collect must, 7 ∈ p.2) ∧
    ∃ s, (LruMinAgeAbstractCache.shared T oneConflict 1).eval may = .ok s ∧
      s.classify T oneConflict 7 1 = .clMiss ∧
      ∃ p ∈ (LruMinAgeAbstractCache.shared T oneConflict 1).collect may, 7 ∈ p.2 := by
  intro T must may
  have hcached : (7 : ℕ) ∈ ((CacheSet.empty : CacheSet ℕ 2).access 7).access 8 := by decide
  have hown : ((CacheSet.empty : CacheSet ℕ 2).access 7).access 8 ∈
      (LruMaxAgeAbstractCache.analysis T).collect must := ⟨_, ⟨.empty, rfl, rfl⟩, rfl⟩
  have hown' : ((CacheSet.empty : CacheSet ℕ 2).access 7).access 8 ∈
      (LruMinAgeAbstractCache.analysis T 1).collect may := ⟨_, ⟨.empty, rfl, rfl⟩, rfl⟩
  have hmust : (LruMaxAgeAbstractCache.shared T oneConflict 1).eval must = .ok ⟨[8, 7], [0, 1], 2⟩ :=
    rfl
  have hmay : (LruMinAgeAbstractCache.shared T oneConflict 1).eval may =
      .ok ⟨[⟨8, 0⟩, ⟨7, 1⟩], 2⟩ := by decide
  exact ⟨⟨_, hmust, by decide, _, mem_collect_sharedAnalysis must _ hown _ .refl, hcached⟩,
    _, hmay, by decide, _, mem_collect_sharedAnalysis may _ hown' _ .refl, hcached⟩

end Llvmta
