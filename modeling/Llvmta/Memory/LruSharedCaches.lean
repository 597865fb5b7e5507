import Llvmta.Library.LexicographicWalk
import Llvmta.Memory.CompositionalAbstractCache
import Llvmta.Memory.LruMaxAgeRepresentation
import Llvmta.Memory.LruMinAgeRepresentation
import Llvmta.Memory.SharedCacheRefinement

/-!
# Shared sets of the must and may analyses

The must analysis leaves elements in its arrays that are no longer in use. Its comparison
skips them, and no operation depends on them. Neither do operations of the may analysis tell
equal states apart, nor those of both together.
-/

namespace Llvmta

open Checked Interning

variable {T : CacheTraits} {M : Multicore}

/-! ## The must analysis -/

namespace LruMaxAgeAbstractCache

variable {s t u : LruMaxAgeAbstractCache} {l : List AgedTag}

/-- A loop over two arrays until the elements differ. -/
def firstDifference (xs ys : List ℕ) : ℕ → ℕ → Except Fault (Option Bool)
  | 0, _ => .ok none
  | n + 1, i => do
    let x ← read xs i
    let y ← read ys i
    if x ≠ y then .ok (some (decide (x < y))) else firstDifference xs ys n (i + 1)

/-- `operator<` -/
def less (x y : LruMaxAgeAbstractCache) : Except Fault Bool :=
  if x.size ≠ y.size then .ok (decide (x.size < y.size))
  else do
    match ← firstDifference x.ages y.ages x.size 0 with
    | some b => .ok b
    | none => do
      match ← firstDifference x.tags y.tags x.size 0 with
      | some b => .ok b
      | none => .ok false

/-- The states whose elements in use are the same. -/
def Same (s t : LruMaxAgeAbstractCache) : Prop := s.equals t = true

/-- The states that hold entries of a set. -/
def storing (T : CacheTraits) : Set LruMaxAgeAbstractCache := {s | ∃ l, Stored T s l}

theorem same_iff : Same s t ↔ s.size = t.size ∧ s.tags.take s.size = t.tags.take t.size ∧
    s.ages.take s.size = t.ages.take t.size := by
  unfold Same LruMaxAgeAbstractCache.equals
  simp only [Bool.and_eq_true, beq_iff_eq]
  constructor
  · rintro ⟨⟨hsize, htags⟩, hages⟩
    exact ⟨hsize, htags.trans (by rw [hsize]), hages.trans (by rw [hsize])⟩
  · rintro ⟨hsize, htags, hages⟩
    exact ⟨⟨hsize, htags.trans (by rw [hsize])⟩, hages.trans (by rw [hsize])⟩

theorem equivalence_same : Equivalence Same where
  refl s := same_iff.mpr ⟨rfl, rfl, rfl⟩
  symm h := by
    obtain ⟨hsize, htags, hages⟩ := same_iff.mp h
    exact same_iff.mpr ⟨hsize.symm, htags.symm, hages.symm⟩
  trans h h' := by
    obtain ⟨hsize, htags, hages⟩ := same_iff.mp h
    obtain ⟨hsize', htags', hages'⟩ := same_iff.mp h'
    exact same_iff.mpr ⟨hsize.trans hsize', htags.trans htags', hages.trans hages'⟩

theorem firstDifference_eq {xs ys : List ℕ} (n i : ℕ) (hx : i + n ≤ xs.length)
    (hy : i + n ≤ ys.length) : firstDifference xs ys n i =
      .ok (Lexicographic.compareKeys ((xs.drop i).take n) ((ys.drop i).take n)) := by
  induction n generalizing i with
  | zero => rfl
  | succ n ih =>
    have hxi : i < xs.length := by omega
    have hyi : i < ys.length := by omega
    rw [firstDifference, read_of_lt hxi, read_of_lt hyi, ok_bind, ok_bind,
      List.drop_eq_getElem_cons hxi, List.drop_eq_getElem_cons hyi, List.take_succ_cons,
      List.take_succ_cons, ih (i + 1) (by omega) (by omega)]
    unfold Lexicographic.compareKeys
    by_cases hne : xs[i] = ys[i]
    · by_cases hrest : (xs.drop (i + 1)).take n = (ys.drop (i + 1)).take n
      · simp [hne, hrest]
      · simp [hne, hrest]
    · simp [hne, List.cons_lt_cons_iff]

/-- What `operator<` compares, in this order. -/
def key (s : LruMaxAgeAbstractCache) : ℕ ×ₗ List ℕ ×ₗ List ℕ :=
  toLex (s.size, toLex (s.ages.take s.size, s.tags.take s.size))

theorem less_eq (hs : s ∈ storing T) (ht : t ∈ storing T) :
    s.less t = .ok (decide (s.key < t.key)) := by
  obtain ⟨_, hs⟩ := hs
  obtain ⟨_, ht⟩ := ht
  have hs := hs.representation
  have ht := ht.representation
  unfold less key
  simp only [Prod.Lex.toLex_lt_toLex]
  by_cases hsize : s.size = t.size
  · have hss := hs.size_le
    rw [if_neg (not_not.mpr hsize),
      firstDifference_eq _ 0 (by rw [hs.ages_length]; omega) (by rw [ht.ages_length]; omega),
      firstDifference_eq _ 0 (by rw [hs.tags_length]; omega) (by rw [ht.tags_length]; omega),
      ok_bind, List.drop_zero, List.drop_zero, List.drop_zero, List.drop_zero, hsize]
    unfold Lexicographic.compareKeys
    by_cases hages : s.ages.take t.size = t.ages.take t.size
    · by_cases htags : s.tags.take t.size = t.tags.take t.size
      · simp [hages, htags]
      · simp [hages, htags]
    · simp [hages]
  · rw [if_pos hsize]
    simp [hsize]

theorem key_eq_iff : s.key = t.key ↔ Same s t := by
  rw [same_iff]
  simp only [key, toLex_inj, Prod.mk.injEq]
  tauto

/-- States of one class hold the same entries. -/
theorem Same.stored (h : Same s t) (hs : Stored T s l) (ht : t ∈ storing T) : Stored T t l := by
  obtain ⟨l', ht⟩ := ht
  rwa [(equals_iff hs.holds ht.holds).mp h]

theorem same_of_holds (hs : Holds T.associativity s l) (ht : Holds T.associativity t l) :
    Same s t :=
  (equals_iff hs ht).mpr rfl

/-- An update of states that hold the same entries gives states that do. -/
theorem agree_of_holds {tag : ℕ} {wantReport : Bool} {assumption : Classification}
    {report : Option UpdateReport} {l' : List AgedTag} (hs : Stored T s l) (ht : Stored T t l)
    (hsu : ∃ s', update T s tag wantReport assumption = .ok (s', report) ∧
      Holds T.associativity s' l')
    (htu : ∃ t', update T t tag wantReport assumption = .ok (t', report) ∧
      Holds T.associativity t' l') :
    Agree (SameResult Same (storing T)) (update T s tag wantReport assumption)
      (update T t tag wantReport assumption) := by
  obtain ⟨s', hs', hholds⟩ := hsu
  obtain ⟨t', ht', hholds'⟩ := htu
  have hstored := (hs.of_update tag wantReport assumption).2 s' report hs'
  have hstored' := (ht.of_update tag wantReport assumption).2 t' report ht'
  rw [hs', ht']
  exact .ok ⟨hstored, hstored', same_of_holds hholds hholds', rfl⟩

theorem Stored.update_agree (hs : Stored T s l) (ht : Stored T t l) (tag : ℕ) (wantReport : Bool)
    (assumption : Classification) :
    Agree (SameResult Same (storing T)) (update T s tag wantReport assumption)
      (update T t tag wantReport assumption) := by
  by_cases hA : T.associativity < 256
  · by_cases hfound : ∃ e ∈ l, e.tag = tag
    · obtain ⟨e, he, rfl⟩ := hfound
      obtain ⟨p, r, rfl⟩ := List.append_of_mem he
      exact agree_of_holds hs ht (update_found hs.holds hs.wellFormed wantReport assumption)
        (update_found ht.holds ht.wellFormed wantReport assumption)
    · have hne : ∀ e ∈ l, e.tag ≠ tag := fun e he h => hfound ⟨e, he, h⟩
      by_cases hhit : assumesHit T assumption = true
      · by_cases hlen : l.length = T.associativity
        · rw [update_illegal hs.holds hA hne hlen wantReport hhit,
            update_illegal ht.holds hA hne hlen wantReport hhit]
          split_ifs
          · exact .error _
          · exact .error _
        · have hlt := lt_of_le_of_ne hs.holds.length_le hlen
          exact agree_of_holds hs ht
            (update_absent_hit hs.holds hs.wellFormed hA hne hlt wantReport hhit)
            (update_absent_hit ht.holds ht.wellFormed hA hne hlt wantReport hhit)
      · rw [Bool.not_eq_true] at hhit
        by_cases hA0 : 0 < T.associativity
        · have hlen := hs.counting.survivors_lt hA0 hs.wellFormed.age_lt
          exact agree_of_holds hs ht
            (update_absent hs.holds hs.wellFormed hA hne hlen wantReport hhit)
            (update_absent ht.holds ht.wellFormed hA hne hlen wantReport hhit)
        · have hA0 : T.associativity = 0 := by omega
          rw [update_noWays hs.holds hA0 tag wantReport hhit,
            update_noWays ht.holds hA0 tag wantReport hhit]
          exact .error _
  · have hnil : l = [] := hs.wellFormed.small.resolve_left hA
    subst hnil
    exact agree_of_holds hs ht (update_wide hs.holds (by omega) tag wantReport assumption)
      (update_wide ht.holds (by omega) tag wantReport assumption)

theorem Stored.potentialUpdate_agree (hs : Stored T s l) (ht : Stored T t l) (wantReport : Bool) :
    Agree (SameResult Same (storing T)) (potentialUpdate T s wantReport)
      (potentialUpdate T t wantReport) := by
  obtain ⟨s', hs', hholds⟩ := potentialUpdate_eq hs.holds hs.wellFormed wantReport
  obtain ⟨t', ht', hholds'⟩ := potentialUpdate_eq ht.holds ht.wellFormed wantReport
  obtain ⟨s'', l', _, hsu, hstored⟩ := hs.of_potentialUpdate wantReport
  obtain ⟨t'', l'', _, htu, hstored'⟩ := ht.of_potentialUpdate wantReport
  rw [hs'] at hsu
  rw [ht'] at htu
  cases hsu
  cases htu
  rw [hs', ht']
  exact .ok ⟨⟨l', hstored⟩, ⟨l'', hstored'⟩, same_of_holds hholds hholds', rfl⟩

theorem Stored.join_agree {s' t' : LruMaxAgeAbstractCache} {l' : List AgedTag}
    (hs : Stored T s l) (hs' : Stored T s' l) (ht : Stored T t l') (ht' : Stored T t' l') :
    Agree (fun u u' => u ∈ storing T ∧ u' ∈ storing T ∧ Same u u') (join T s t) (join T s' t') := by
  obtain ⟨u, o, hu, ho⟩ := hs.of_join ht
  obtain ⟨u', o', hu', ho'⟩ := hs'.of_join ht'
  obtain ⟨v, p, hv, hp, hw, hmem⟩ := join_spec hs.holds ht.holds hs.wellFormed ht.wellFormed
  obtain ⟨v', p', hv', hp', hw', hmem'⟩ :=
    join_spec hs'.holds ht'.holds hs'.wellFormed ht'.wellFormed
  obtain rfl : u = v := Except.ok.inj (hu.symm.trans hv)
  obtain rfl : u' = v' := Except.ok.inj (hu'.symm.trans hv')
  obtain rfl : p = p' := hw.sorted.ext hw'.sorted fun e => (hmem e).trans (hmem' e).symm
  rw [hu, hu']
  exact .ok ⟨⟨o, ho⟩, ⟨o', ho'⟩, same_of_holds hp hp'⟩

theorem Stored.classify_eq (hs : Stored T s l) (ht : Stored T t l) (tag index : ℕ) :
    classify T M s tag index = classify T M t tag index := by
  by_cases hfound : ∃ e ∈ l, e.tag = tag
  · obtain ⟨e, he, rfl⟩ := hfound
    rw [classify_found hs.holds hs.wellFormed.distinct he,
      classify_found ht.holds ht.wellFormed.distinct he]
  · have hne : ∀ e ∈ l, e.tag ≠ tag := fun e he h => hfound ⟨e, he, h⟩
    rw [classify_absent hs.holds hne, classify_absent ht.holds hne]

theorem respects_same : (setAnalysis T M).Respects Same (storing T) where
  new assumeAnEmptyCache := ⟨[], stored_new assumeAnEmptyCache⟩
  classify := by
    rintro s ⟨l, hs⟩ t ht hst addr
    have heq (tag index : ℕ) := hs.classify_eq (M := M) (hst.stored hs ht) tag index
    simp only [setAnalysis, heq]
  update := by
    rintro s ⟨l, hs⟩ t ht hst addr _ wantReport assumption
    exact .bind_same fun tag _ => hs.update_agree (hst.stored hs ht) tag wantReport assumption
  potentialUpdate := by
    rintro s ⟨l, hs⟩ t ht hst _ _ wantReport
    exact hs.potentialUpdate_agree (hst.stored hs ht) wantReport
  join := by
    rintro s ⟨l, hs⟩ s' hs' t ⟨l', ht⟩ t' ht' hss htt
    exact hs.join_agree (hss.stored hs hs') ht (htt.stored ht ht')
  equals_iff s _ t _ := by
    rw [same_iff]
    simp only [setAnalysis, Bool.and_eq_true, beq_iff_eq]
    constructor
    · rintro ⟨⟨hsize, htags⟩, hages⟩
      exact ⟨hsize, htags.trans (by rw [hsize]), hages.trans (by rw [hsize])⟩
    · rintro ⟨hsize, htags, hages⟩
      exact ⟨⟨hsize, htags.trans (by rw [hsize])⟩, hages.trans (by rw [hsize])⟩

end LruMaxAgeAbstractCache

/-! ## The may analysis -/

namespace LruMinAgeAbstractCache

variable {x y : LruMinAgeAbstractCache}

/-- `std::vector` compares the first elements that differ by `MayInfo::operator<`. -/
def lessTags : List AgedTag → List AgedTag → Bool
  | e :: l, f :: l' =>
    if e.Before f then true else if f.Before e then false else lessTags l l'
  | [], _ :: _ => true
  | _, [] => false

/-- `operator<` -/
def less (x y : LruMinAgeAbstractCache) : Bool :=
  decide (x.ageOfImplicitTags < y.ageOfImplicitTags) ||
    (x.ageOfImplicitTags == y.ageOfImplicitTags && lessTags x.explicitTags y.explicitTags)

def tagKey (e : AgedTag) : ℕ ×ₗ ℕ := toLex (e.age, e.tag)

theorem tagKey_lt_iff {e f : AgedTag} : tagKey e < tagKey f ↔ e.Before f :=
  Prod.Lex.toLex_lt_toLex

theorem tagKey_injective : Function.Injective tagKey := by
  rintro ⟨tag, age⟩ ⟨tag', age'⟩ h
  cases toLex.injective h
  rfl

theorem lessTags_eq (l l' : List AgedTag) :
    lessTags l l' = decide (l.map tagKey < l'.map tagKey) := by
  induction l generalizing l' with
  | nil => cases l' <;> simp [lessTags]
  | cons e l ih =>
    cases l' with
    | nil => simp [lessTags]
    | cons f l' =>
      simp only [lessTags, List.map_cons, List.cons_lt_cons_iff, tagKey_lt_iff, ih]
      rcases AgedTag.eq_or_before e f with rfl | hef | hfe
      · simp [AgedTag.Before.irrefl]
      · simp [hef]
      · have hne : tagKey e ≠ tagKey f := fun h =>
          AgedTag.Before.irrefl f (tagKey_injective h ▸ hfe)
        have hnot : ¬e.Before f := fun hef => AgedTag.Before.irrefl e (hef.trans hfe)
        simp [hfe, hne, hnot]

/-- What `operator<` compares, in this order. -/
def key (x : LruMinAgeAbstractCache) : ℕ ×ₗ List (ℕ ×ₗ ℕ) :=
  toLex (x.ageOfImplicitTags, x.explicitTags.map tagKey)

theorem less_eq (x y : LruMinAgeAbstractCache) : x.less y = decide (x.key < y.key) := by
  rw [Bool.eq_iff_iff]
  simp [less, key, lessTags_eq, Prod.Lex.toLex_lt_toLex]

theorem key_injective : Function.Injective key := by
  rintro ⟨tags, age⟩ ⟨tags', age'⟩ h
  simp only [key, toLex_inj, Prod.mk.injEq] at h
  rw [h.1, List.map_injective_iff.mpr tagKey_injective h.2]

theorem agree_self {ρ : Type} (r : Except Fault (LruMinAgeAbstractCache × ρ)) :
    Agree (SameResult Eq Set.univ) r r :=
  (Agree.refl r).mono fun _ _ h => ⟨trivial, trivial, congrArg Prod.fst h, congrArg Prod.snd h⟩

theorem respects_eq : (setAnalysis T M).Respects Eq Set.univ where
  new _ := trivial
  classify := by
    rintro x _ _ _ rfl addr
    rfl
  update := by
    rintro x _ _ _ rfl addr load_store wantReport assumption
    exact agree_self _
  potentialUpdate := by
    rintro x _ _ _ rfl addr load_store wantReport
    exact agree_self _
  join := by
    rintro x _ _ _ y _ _ _ rfl rfl
    exact (Agree.refl _).mono fun _ _ h => ⟨trivial, trivial, h⟩
  equals_iff x _ y _ := by simp [setAnalysis]

end LruMinAgeAbstractCache

/-! ## Both together -/

namespace CompositionalAbstractCache

variable {σ τ : Type} {A : CacheSetAnalysis σ} {B : CacheSetAnalysis τ}
  {same₁ : σ → σ → Prop} {same₂ : τ → τ → Prop} {S₁ : Set σ} {S₂ : Set τ}

/-- `operator<` -/
def less (less₁ : σ → σ → Except Fault Bool) (less₂ : τ → τ → Except Fault Bool) (s y : σ × τ) :
    Except Fault Bool := do
  if ← less₁ s.1 y.1 then .ok true
  else if ← less₁ y.1 s.1 then .ok false
  else less₂ s.2 y.2

/-- The states of both analyses are of one class each. -/
def Same (same₁ : σ → σ → Prop) (same₂ : τ → τ → Prop) (s y : σ × τ) : Prop :=
  same₁ s.1 y.1 ∧ same₂ s.2 y.2

theorem equivalence_same (h₁ : Equivalence same₁) (h₂ : Equivalence same₂) :
    Equivalence (Same same₁ same₂) where
  refl s := ⟨h₁.refl s.1, h₂.refl s.2⟩
  symm h := ⟨h₁.symm h.1, h₂.symm h.2⟩
  trans h h' := ⟨h₁.trans h.1 h'.1, h₂.trans h.2 h'.2⟩

theorem discerns_less {α β : Type} [LinearOrder α] [LinearOrder β]
    {less₁ : σ → σ → Except Fault Bool} {less₂ : τ → τ → Except Fault Bool} {key₁ : σ → α}
    {key₂ : τ → β} (hless₁ : ∀ x ∈ S₁, ∀ y ∈ S₁, less₁ x y = .ok (decide (key₁ x < key₁ y)))
    (hless₂ : ∀ x ∈ S₂, ∀ y ∈ S₂, less₂ x y = .ok (decide (key₂ x < key₂ y)))
    (hsame₁ : ∀ x ∈ S₁, ∀ y ∈ S₁, key₁ x = key₁ y ↔ same₁ x y)
    (hsame₂ : ∀ x ∈ S₂, ∀ y ∈ S₂, key₂ x = key₂ y ↔ same₂ x y) :
    Discerns (less less₁ less₂) (Same same₁ same₂) (S₁ ×ˢ S₂) := by
  refine discerns_of_key (fun s => toLex (key₁ s.1, key₂ s.2)) ?_ ?_
  · rintro ⟨x₁, x₂⟩ ⟨hx₁, hx₂⟩ ⟨y₁, y₂⟩ ⟨hy₁, hy₂⟩
    dsimp only at hx₁ hx₂ hy₁ hy₂
    simp only [less, hless₁ x₁ hx₁ y₁ hy₁, hless₁ y₁ hy₁ x₁ hx₁, hless₂ x₂ hx₂ y₂ hy₂, ok_bind,
      Prod.Lex.toLex_lt_toLex]
    rcases lt_trichotomy (key₁ x₁) (key₁ y₁) with hlt | heq | hgt
    · simp [hlt]
    · simp [heq]
    · simp [hgt, hgt.ne', hgt.not_gt]
  · rintro ⟨x₁, x₂⟩ ⟨hx₁, hx₂⟩ ⟨y₁, y₂⟩ ⟨hy₁, hy₂⟩
    rw [toLex_inj, Prod.mk.injEq, hsame₁ x₁ hx₁ y₁ hy₁, hsame₂ x₂ hx₂ y₂ hy₂]
    rfl

/-- The operations of both analyses, with their reports joined. -/
theorem agree_both (wantReport : Bool) {f f' : Except Fault (σ × Option UpdateReport)}
    {g g' : Except Fault (τ × Option UpdateReport)} (hf : Agree (SameResult same₁ S₁) f f')
    (hg : Agree (SameResult same₂ S₂) g g') :
    Agree (SameResult (Same same₁ same₂) (S₁ ×ˢ S₂))
      (do
        let (s1, report) ← f
        let (s2, report2) ← g
        let joined ← joinReports wantReport report report2
        .ok ((s1, s2), joined))
      (do
        let (s1, report) ← f'
        let (s2, report2) ← g'
        let joined ← joinReports wantReport report report2
        .ok ((s1, s2), joined)) := by
  refine hf.bind ?_
  rintro ⟨s1, report⟩ ⟨y1, _⟩ ⟨hs1, hy1, hsame1, rfl⟩
  refine hg.bind ?_
  rintro ⟨s2, report2⟩ ⟨y2, _⟩ ⟨hs2, hy2, hsame2, rfl⟩
  exact .bind_same fun joined _ => .ok ⟨⟨hs1, hs2⟩, ⟨hy1, hy2⟩, ⟨hsame1, hsame2⟩, rfl⟩

theorem respects_same (hA : A.Respects same₁ S₁) (hB : B.Respects same₂ S₂) :
    (setAnalysis A B).Respects (Same same₁ same₂) (S₁ ×ˢ S₂) where
  new empty := ⟨hA.new empty, hB.new empty⟩
  classify := by
    rintro x ⟨hx₁, hx₂⟩ y ⟨hy₁, hy₂⟩ ⟨hxy₁, hxy₂⟩ addr
    simp only [setAnalysis, classify, hA.classify x.1 hx₁ y.1 hy₁ hxy₁,
      hB.classify x.2 hx₂ y.2 hy₂ hxy₂]
  update := by
    rintro x ⟨hx₁, hx₂⟩ y ⟨hy₁, hy₂⟩ ⟨hxy₁, hxy₂⟩ addr load_store wantReport assumption
    have hclassify : classify A B x addr = classify A B y addr := by
      simp only [classify, hA.classify x.1 hx₁ y.1 hy₁ hxy₁, hB.classify x.2 hx₂ y.2 hy₂ hxy₂]
    have hboth (cl : Classification) := agree_both wantReport
      (hA.update x.1 hx₁ y.1 hy₁ hxy₁ addr load_store wantReport cl)
      (hB.update x.2 hx₂ y.2 hy₂ hxy₂ addr load_store wantReport cl)
    change Agree _ (update A B x addr load_store wantReport assumption)
      (update A B y addr load_store wantReport assumption)
    unfold update
    rw [hclassify]
    split_ifs
    · exact .bind_same fun cl _ => .bind_same fun _ _ => hboth cl
    · exact .bind_same fun cl _ => .bind_same fun _ _ => hboth cl
  potentialUpdate := by
    rintro x ⟨hx₁, hx₂⟩ y ⟨hy₁, hy₂⟩ ⟨hxy₁, hxy₂⟩ addr load_store wantReport
    exact agree_both wantReport
      (hA.potentialUpdate x.1 hx₁ y.1 hy₁ hxy₁ addr load_store wantReport)
      (hB.potentialUpdate x.2 hx₂ y.2 hy₂ hxy₂ addr load_store wantReport)
  join := by
    rintro x ⟨hx₁, hx₂⟩ x' ⟨hx₁', hx₂'⟩ y ⟨hy₁, hy₂⟩ y' ⟨hy₁', hy₂'⟩ ⟨hxx₁, hxx₂⟩ ⟨hyy₁, hyy₂⟩
    refine (hA.join x.1 hx₁ x'.1 hx₁' y.1 hy₁ y'.1 hy₁' hxx₁ hyy₁).bind ?_
    rintro u₁ u₁' ⟨hu₁, hu₁', huu₁⟩
    refine (hB.join x.2 hx₂ x'.2 hx₂' y.2 hy₂ y'.2 hy₂' hxx₂ hyy₂).bind ?_
    rintro u₂ u₂' ⟨hu₂, hu₂', huu₂⟩
    exact .ok ⟨⟨hu₁, hu₂⟩, ⟨hu₁', hu₂'⟩, huu₁, huu₂⟩
  equals_iff := by
    rintro x ⟨hx₁, hx₂⟩ y ⟨hy₁, hy₂⟩
    simp only [setAnalysis, Bool.and_eq_true, hA.equals_iff x.1 hx₁ y.1 hy₁,
      hB.equals_iff x.2 hx₂ y.2 hy₂]
    rfl

end CompositionalAbstractCache

/-! ## The cache for the replacement policy `LRU` -/

open SharedCacheSets in
/-- The caches of the must and the may analysis give the same answers whether their sets are
shared or not, whatever is done with them in which order. -/
theorem shared_answers_lru (T : CacheTraits) (M : Multicore) (commands : List Command) :
    let C := CompositionalAbstractCache.setAnalysis (LruMaxAgeAbstractCache.setAnalysis T M)
      (LruMinAgeAbstractCache.setAnalysis T M)
    let less := CompositionalAbstractCache.less LruMaxAgeAbstractCache.less
      fun x y => .ok (LruMinAgeAbstractCache.less x y)
    answers (step T C less) commands (.initial, []) = answers (valueStep T C) commands [] := by
  intro C less
  have hless : Discerns less (CompositionalAbstractCache.Same LruMaxAgeAbstractCache.Same Eq)
      (LruMaxAgeAbstractCache.storing T ×ˢ Set.univ) :=
    CompositionalAbstractCache.discerns_less
      (fun x hx y hy => LruMaxAgeAbstractCache.less_eq hx hy)
      (fun x _ y _ => congrArg Except.ok (LruMinAgeAbstractCache.less_eq x y))
      (fun x _ y _ => LruMaxAgeAbstractCache.key_eq_iff)
      fun x _ y _ => LruMinAgeAbstractCache.key_injective.eq_iff
  exact shared_answers
    (CompositionalAbstractCache.equivalence_same LruMaxAgeAbstractCache.equivalence_same
      eq_equivalence) hless
    (CompositionalAbstractCache.respects_same LruMaxAgeAbstractCache.respects_same
      LruMinAgeAbstractCache.respects_eq) commands

end Llvmta
