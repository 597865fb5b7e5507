import Llvmta.Memory.LruMinAgeSoundness

/-!
# The representation of the may analysis

The explicit tags are distinct and sorted, and their ages are below the common
one, which is at most the number of ways. A tag in no explicit entry tells the
common bounds of two states apart, so that `operator==` is equality of all
bounds. As tags are the quotients of 32-bit addresses there always is such a tag
unless lines and sets are trivial.
-/

namespace Llvmta

open Checked AgedTag

namespace LruMinAgeAbstractCache

variable {T : CacheTraits} {s t : LruMinAgeAbstractCache}

/-- `operator==`. -/
def equals (x y : LruMinAgeAbstractCache) : Bool :=
  x.ageOfImplicitTags == y.ageOfImplicitTags && x.explicitTags == y.explicitTags

theorem equals_iff : equals s t = true ↔ s = t := by
  rw [equals, Bool.and_eq_true, beq_iff_eq, beq_iff_eq, and_comm, LruMinAgeAbstractCache.ext_iff]

/-- An entry is an age below the common one. -/
theorem WellFormed.mem_iff (hw : WellFormed T s) (e : AgedTag) :
    e ∈ s.explicitTags ↔ getMinAge s e.tag = e.age ∧ e.age < s.ageOfImplicitTags := by
  constructor
  · exact fun he => ⟨getMinAge_of_mem hw.distinct he, hw.age_lt e he⟩
  · rintro ⟨hage, hlt⟩
    by_cases hfound : ∃ f ∈ s.explicitTags, f.tag = e.tag
    · obtain ⟨f, hf, htag⟩ := hfound
      rw [← htag, getMinAge_of_mem hw.distinct hf] at hage
      obtain rfl : f = e := by
        cases f
        cases e
        simp_all
      exact hf
    · rw [getMinAge_of_absent fun f hf h => hfound ⟨f, hf, h⟩] at hage
      omega

/-- States with the same bounds are the same when some tag is explicit in neither. -/
theorem eq_of_getMinAge {N : ℕ} (hs : WellFormed T s) (ht : WellFormed T t)
    (htags : ∀ e, e ∈ s.explicitTags ∨ e ∈ t.explicitTags → e.tag < N)
    (h : ∀ tag ≤ N, getMinAge s tag = getMinAge t tag) : s = t := by
  have hs' : getMinAge s N = s.ageOfImplicitTags :=
    getMinAge_of_absent fun e he => (htags e (.inl he)).ne
  have ht' : getMinAge t N = t.ageOfImplicitTags :=
    getMinAge_of_absent fun e he => (htags e (.inr he)).ne
  have himplicit : s.ageOfImplicitTags = t.ageOfImplicitTags := by
    rw [← hs', h N le_rfl, ht']
  refine LruMinAgeAbstractCache.ext (hs.sorted.ext ht.sorted fun e => ?_) himplicit
  constructor
  · intro he
    have htag := h e.tag (htags e (.inl he)).le
    rwa [ht.mem_iff, ← htag, ← himplicit, ← hs.mem_iff]
  · intro he
    have htag := h e.tag (htags e (.inr he)).le
    rwa [hs.mem_iff, htag, himplicit, ← ht.mem_iff]

/-! ## The explicit tags of a run -/

theorem tag_of_potentialUpdate {itv : AddressInterval} {wantReport : Bool}
    {report : Option UpdateReport} (h : potentialUpdate T s itv wantReport = .ok (t, report))
    {e : AgedTag} (he : e ∈ t.explicitTags) :
    e ∈ s.explicitTags ∨ e.tag ≤ getTag T itv.upper := by
  simp only [potentialUpdate] at h
  split_ifs at h with h0 hlarge
  · obtain ⟨_, _, h⟩ := bind_eq_ok.mp h
    cases h
    exact .inl he
  · cases h
    exact absurd he List.not_mem_nil
  · obtain ⟨range, hrange, h⟩ := bind_eq_ok.mp h
    cases h
    rcases mem_insertRange.mp he with he | ⟨he, _⟩
    · exact .inr ((mem_tagRange hrange e).mp he).2.2
    · exact .inl he

theorem Updated.tag_of_mem {a tag : ℕ} (hu : Updated T a tag s t) {e : AgedTag}
    (he : e ∈ t.explicitTags) : e.tag = tag ∨ ∃ f ∈ s.explicitTags, f.tag = e.tag := by
  rcases ((hu.mem_iff e).mp he).2 with rfl | ⟨f, hf, _, rfl⟩
  · exact .inl rfl
  · exact .inr ⟨f, hf, rfl⟩

/-- The accessed tag is the one of an address. -/
def AccessesAddress (T : CacheTraits) : MayOp → Prop
  | .update tag _ _ => ∃ addr < 2 ^ 32, tag = getTag T addr
  | .potentialUpdate _ _ => True

theorem getTag_lt (h : 1 < T.lineSize * T.nSets) {addr : ℕ} (haddr : addr < 2 ^ 32) :
    getTag T addr < 2 ^ 31 := by
  have hle : getTag T addr ≤ addr / 2 := by
    rw [getTag, Nat.div_div_eq_div_mul]
    exact Nat.div_le_div_left h (by decide)
  omega

theorem wellFormed_of_eval {index : ℕ} (r : Collecting.Run Bool MayOp) :
    ∀ s, (analysis T index).eval r = .ok s → WellFormed T s := by
  intro s hs
  have hdescribes := Collecting.Analysis.Run.sound_of_ok (S := analysis T index) (Describes T)
    (describes_new index) describes_step describes_join r s hs
  exact hdescribes.1

/-- A run over addresses makes no tag explicit that is too large for one. -/
theorem tag_lt_of_eval {index : ℕ} (hT : 1 < T.lineSize * T.nSets)
    (r : Collecting.Run Bool MayOp)
    (hr : (analysis T index).Every (fun op _ _ => AccessesAddress T op) r) :
    ∀ s, (analysis T index).eval r = .ok s → ∀ e ∈ s.explicitTags, e.tag < 2 ^ 31 := by
  intro s hs
  have hall := Collecting.Analysis.Run.sound_of_every_ok (S := analysis T index)
    (fun s _ => WellFormed T s ∧ ∀ e ∈ s.explicitTags, e.tag < 2 ^ 31)
    (fun i => ⟨wellFormed_new i, by simp [analysis, new]⟩) ?_ ?_ r hr s hs
  · exact hall.2
  · rintro op s s' _ ⟨hw, htags⟩ hop hs'
    cases op with
    | update tag wantReport assumption =>
      obtain ⟨addr, haddr, rfl⟩ := hop
      obtain ⟨u, evicted, hu, hupd, _⟩ := update_spec hw (getTag T addr) wantReport assumption
      simp only [analysis, hu, Except.map, Except.ok.injEq] at hs'
      subst hs'
      refine ⟨hupd.wellFormed, fun e he => ?_⟩
      rcases hupd.tag_of_mem he with htag | ⟨f, hf, htag⟩
      · exact htag ▸ getTag_lt hT haddr
      · exact htag ▸ htags f hf
    | potentialUpdate itv wantReport =>
      cases hp : potentialUpdate T s itv wantReport with
      | error e => simp [analysis, hp, Except.map] at hs'
      | ok res =>
        obtain ⟨u, report⟩ := res
        simp only [analysis, hp, Except.map, Except.ok.injEq] at hs'
        subst hs'
        refine ⟨(potentialUpdate_spec hw hp).wellFormed, fun e he => ?_⟩
        rcases tag_of_potentialUpdate hp he with he | hle
        · exact htags e he
        · exact hle.trans_lt (getTag_lt hT itv.upper_lt)
  · rintro s t u _ _ ⟨hs, hst⟩ ⟨ht, htt⟩ hu
    obtain ⟨u', hu', hw, _, _, hmem⟩ := join_spec hs ht
    obtain rfl : u' = u := Except.ok.inj (hu'.symm.trans hu)
    exact ⟨hw, fun e he => (hmem e he).elim (hst e) (htt e)⟩

/-! ## Equality -/

/-- A number above all explicit tags of both states. -/
theorem exists_tag_bound (l : List AgedTag) : ∃ N, ∀ e ∈ l, e.tag < N := by
  induction l with
  | nil => exact ⟨0, by simp⟩
  | cons e l ih =>
    obtain ⟨N, hN⟩ := ih
    refine ⟨max (e.tag + 1) N, fun f hf => ?_⟩
    rcases List.mem_cons.mp hf with rfl | hf
    · omega
    · have := hN f hf
      omega

theorem equals_iff_getMinAge (hs : WellFormed T s) (ht : WellFormed T t) :
    equals s t = true ↔ ∀ tag, getMinAge s tag = getMinAge t tag := by
  rw [equals_iff]
  constructor
  · rintro rfl tag
    rfl
  · intro h
    obtain ⟨N, hN⟩ := exists_tag_bound (s.explicitTags ++ t.explicitTags)
    exact eq_of_getMinAge hs ht (fun e he => hN e (List.mem_append.mpr he)) fun tag _ => h tag

/-- The assertion of `potentialUpdate` holds. -/
theorem potentialUpdate_ne_assertion (hw : WellFormed T s) (itv : AddressInterval)
    (wantReport : Bool) (message : String) :
    potentialUpdate T s itv wantReport ≠ .error (.assertion message) := by
  simp only [potentialUpdate]
  split_ifs with h0 hlarge
  · have hnil : s.explicitTags = [] := by
      apply List.eq_nil_iff_forall_not_mem.mpr
      intro e he
      have := hw.age_lt e he
      omega
    rw [hnil]
    exact fun h => by cases h
  · exact fun h => by cases h
  · unfold tagRange
    split_ifs
    · exact fun h => by cases h
    · exact fun h => by cases h

/-- The form of all states of a run: the explicit tags are distinct, sorted and of
ages below the common one, and `operator==` is equality of the bounds. For runs
over addresses the bounds of the 32-bit tags are enough. -/
theorem mayRepresentation_of_run (T : CacheTraits) (index : ℕ) (r : Collecting.Run Bool MayOp)
    (s : LruMinAgeAbstractCache) (hs : (analysis T index).eval r = .ok s) :
    Sorted s.explicitTags ∧ Distinct s.explicitTags ∧
    (∀ e ∈ s.explicitTags, e.age < s.ageOfImplicitTags) ∧
    s.ageOfImplicitTags ≤ T.associativity ∧
    (∀ itv wantReport message,
      potentialUpdate T s itv wantReport ≠ .error (.assertion message)) ∧
    ∀ r' t, (analysis T index).eval r' = .ok t →
      (equals s t = true ↔ ∀ tag, getMinAge s tag = getMinAge t tag) ∧
      (1 < T.lineSize * T.nSets →
        (analysis T index).Every (fun op _ _ => AccessesAddress T op) r →
        (analysis T index).Every (fun op _ _ => AccessesAddress T op) r' →
        (equals s t = true ↔ ∀ tag < 2 ^ 32, getMinAge s tag = getMinAge t tag)) := by
  have hw := wellFormed_of_eval r s hs
  refine ⟨hw.sorted, hw.distinct, hw.age_lt, hw.implicit_le, potentialUpdate_ne_assertion hw,
    fun r' t ht => ?_⟩
  have hw' := wellFormed_of_eval r' t ht
  refine ⟨equals_iff_getMinAge hw hw', fun hT hr hr' => ⟨fun h tag _ => ?_, fun h => ?_⟩⟩
  · rw [equals_iff.mp h]
  · have htags (e : AgedTag) (he : e ∈ s.explicitTags ∨ e ∈ t.explicitTags) : e.tag < 2 ^ 31 :=
      he.elim (tag_lt_of_eval hT r hr s hs e) (tag_lt_of_eval hT r' hr' t ht e)
    exact equals_iff.mpr (eq_of_getMinAge hw hw' htags fun tag htag => h tag (by omega))

/-- A joined state of a two-way set. -/
theorem mayRepresentation_of_run_twoWays :
    let T : CacheTraits := ⟨16, 2, 4, false, false, 1, 5⟩
    let s : LruMinAgeAbstractCache := ⟨[⟨7, 0⟩, ⟨9, 0⟩], 1⟩
    Sorted s.explicitTags ∧ Distinct s.explicitTags ∧
    (∀ e ∈ s.explicitTags, e.age < s.ageOfImplicitTags) ∧
    s.ageOfImplicitTags ≤ T.associativity ∧
    (∀ itv wantReport message,
      potentialUpdate T s itv wantReport ≠ .error (.assertion message)) ∧
    ∀ r' t, (analysis T 0).eval r' = .ok t →
      (equals s t = true ↔ ∀ tag, getMinAge s tag = getMinAge t tag) ∧
      (1 < T.lineSize * T.nSets →
        (analysis T 0).Every (fun op _ _ => AccessesAddress T op)
          (.join (.step (.start true) (.update 7 true .clUnknown))
            (.step (.start false) (.update 9 true .clUnknown))) →
        (analysis T 0).Every (fun op _ _ => AccessesAddress T op) r' →
        (equals s t = true ↔ ∀ tag < 2 ^ 32, getMinAge s tag = getMinAge t tag)) := by
  intro T s
  exact mayRepresentation_of_run T 0 _ s (by decide)

end LruMinAgeAbstractCache

end Llvmta
