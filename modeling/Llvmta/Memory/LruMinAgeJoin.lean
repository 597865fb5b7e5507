import Llvmta.Memory.LruMinAgeOperations

/-!
# Unknown accesses and joins of the may analysis

Both operations only lower bounds: an unknown access lowers those of the tags it
may touch to 0, a join takes the lower one of two bounds.
-/

namespace Llvmta

open Checked AgedTag

namespace LruMinAgeAbstractCache

variable {T : CacheTraits}

/-! ## potentialUpdate -/

section Range

variable {range : List AgedTag} {low high : ℕ}

/-- The elements an unknown access to the tags from `low` to `high` leaves alone. -/
def untouched (low high : ℕ) (l : List AgedTag) : List AgedTag :=
  l.filter fun e => e.tag < low ∨ high < e.tag

theorem mem_untouched {l : List AgedTag} {e : AgedTag} :
    e ∈ untouched low high l ↔ e ∈ l ∧ (e.tag < low ∨ high < e.tag) := by
  simp [untouched]

theorem untouched_cons (e : AgedTag) (l : List AgedTag) :
    untouched low high (e :: l) =
      (if e.tag < low ∨ high < e.tag then [e] else []) ++ untouched low high l := by
  by_cases h : e.tag < low ∨ high < e.tag
  · rw [untouched, List.filter_cons_of_pos (by simpa using h), if_pos h]
    rfl
  · rw [untouched, List.filter_cons_of_neg (by simpa using h), if_neg h]
    rfl

theorem insertRange_true (l : List AgedTag) :
    insertRange range low high true l = untouched low high l := by
  induction l with
  | nil => rfl
  | cons e l ih =>
    rw [insertRange, untouched_cons]
    simp only [Bool.not_true, Bool.false_and, Bool.false_eq_true, if_false, List.nil_append,
      Bool.true_or, ih]

theorem insertRange_cons (e : AgedTag) (l : List AgedTag) :
    insertRange range low high false (e :: l) =
      if 0 < e.age ∨ low ≤ e.tag then range ++ untouched low high (e :: l)
      else e :: insertRange range low high false l := by
  rw [insertRange, untouched_cons]
  by_cases h : 0 < e.age ∨ low ≤ e.tag
  · have hb : (decide (0 < e.age) || decide (low ≤ e.tag)) = true := by simpa using h
    rw [if_pos h]
    simp only [Bool.not_false, Bool.true_and, hb, if_true, Bool.or_true, insertRange_true,
      List.append_assoc]
  · have hb : (decide (0 < e.age) || decide (low ≤ e.tag)) = false := by simpa using h
    have hlow : e.tag < low ∨ high < e.tag := .inl (by omega)
    rw [if_neg h]
    simp only [Bool.not_false, Bool.true_and, hb, Bool.false_eq_true, if_false, List.nil_append,
      if_pos hlow, Bool.false_or, List.singleton_append]

theorem insertRange_perm (l : List AgedTag) :
    (insertRange range low high false l).Perm (range ++ untouched low high l) := by
  induction l with
  | nil =>
    rw [insertRange, untouched, List.filter_nil, List.append_nil]
    exact List.Perm.refl _
  | cons e l ih =>
    rw [insertRange_cons]
    split_ifs with h
    · exact List.Perm.refl _
    · have hlow : e.tag < low ∨ high < e.tag := .inl (by omega)
      rw [untouched_cons, if_pos hlow, List.singleton_append]
      exact (ih.cons e).trans List.perm_middle.symm

theorem mem_insertRange {l : List AgedTag} {e : AgedTag} :
    e ∈ insertRange range low high false l ↔ e ∈ range ∨ e ∈ l ∧ (e.tag < low ∨ high < e.tag) := by
  rw [(insertRange_perm l).mem_iff, List.mem_append, mem_untouched]

theorem sorted_insertRange {l : List AgedTag} (hl : Sorted l) (hr : Sorted range)
    (hmem : ∀ e ∈ range, e.age = 0 ∧ low ≤ e.tag ∧ e.tag ≤ high) :
    Sorted (insertRange range low high false l) := by
  induction l with
  | nil => exact hr
  | cons e l ih =>
    obtain ⟨hel, hl'⟩ := sorted_cons.mp hl
    rw [insertRange_cons]
    split_ifs with h
    · apply sorted_append.mpr
      refine ⟨hr, hl.filter _, ?_⟩
      intro f hf g hg
      obtain ⟨hf0, hflow, hfhigh⟩ := hmem f hf
      obtain ⟨hgl, hgt⟩ := mem_untouched.mp hg
      -- an element of age 0 that is left alone has a tag beyond the range
      have heg : e = g ∨ e.Before g := by
        rcases List.mem_cons.mp hgl with rfl | hgl
        · exact .inl rfl
        · exact .inr (hel g hgl)
      rcases heg with rfl | heg
      · unfold Before
        omega
      · unfold Before at *
        omega
    · apply sorted_cons.mpr
      refine ⟨?_, ih hl'⟩
      intro f hf
      rcases mem_insertRange.mp hf with hf | ⟨hf, _⟩
      · have := hmem f hf
        unfold Before
        omega
      · exact hel f hf

end Range

theorem mem_tagRange {low high : ℕ} {range : List AgedTag} (h : tagRange low high = .ok range)
    (e : AgedTag) : e ∈ range ↔ e.age = 0 ∧ low ≤ e.tag ∧ e.tag ≤ high := by
  unfold tagRange at h
  split_ifs at h
  simp only [Except.ok.injEq] at h
  subst h
  rw [List.mem_map]
  constructor
  · rintro ⟨t, ht, rfl⟩
    have := List.mem_range'_1.mp ht
    exact ⟨rfl, by dsimp only; omega, by dsimp only; omega⟩
  · rintro ⟨hage, hlow, hhigh⟩
    refine ⟨e.tag, List.mem_range'_1.mpr (by omega), ?_⟩
    rw [← hage]

theorem sorted_tagRange {low high : ℕ} {range : List AgedTag}
    (h : tagRange low high = .ok range) : Sorted range ∧ Distinct range := by
  unfold tagRange at h
  split_ifs at h
  simp only [Except.ok.injEq] at h
  subst h
  constructor
  · apply List.pairwise_map.mpr
    exact (List.pairwise_lt_range' _ (by decide)).imp fun h => .inr ⟨rfl, h⟩
  · unfold Distinct
    rw [List.map_map]
    have hid : AgedTag.tag ∘ (fun t => (⟨t, 0⟩ : AgedTag)) = id := rfl
    rw [hid, List.map_id]
    exact List.nodup_range' _ (by decide)

/-- An unknown access lowers bounds, those of the tags it may touch to 0. -/
structure Lowered (T : CacheTraits) (touches : ℕ → Prop) (s s' : LruMinAgeAbstractCache) :
    Prop where
  wellFormed : WellFormed T s'
  le : ∀ t, getMinAge s' t ≤ getMinAge s t
  eq_zero : ∀ t, touches t → getMinAge s' t = 0

theorem wellFormed_top : WellFormed T ⟨[], 0⟩ :=
  ⟨Sorted.nil, Distinct.nil, by simp, Nat.zero_le _, by decide⟩

theorem lowered_insertRange {s : LruMinAgeAbstractCache} (hw : WellFormed T s)
    (h0 : s.ageOfImplicitTags ≠ 0) {low high : ℕ} {range : List AgedTag}
    (hrange : tagRange low high = .ok range) :
    Lowered T (fun t => low ≤ t ∧ t ≤ high) s
      { s with explicitTags := insertRange range low high false s.explicitTags } := by
  have hmem := mem_tagRange hrange
  obtain ⟨hsr, hdr⟩ := sorted_tagRange hrange
  have hd : Distinct (insertRange range low high false s.explicitTags) := by
    apply Distinct.perm _ (insertRange_perm _).symm
    unfold Distinct
    rw [List.map_append, List.nodup_append']
    refine ⟨hdr, hw.distinct.sublist List.filter_sublist, ?_⟩
    intro t ht ht'
    obtain ⟨e, he, rfl⟩ := List.mem_map.mp ht
    obtain ⟨f, hf, hft⟩ := List.mem_map.mp ht'
    have := (hmem e).mp he
    have := (mem_untouched.mp hf).2
    omega
  have hzero (t : ℕ) (ht : low ≤ t ∧ t ≤ high) : getMinAge
      { s with explicitTags := insertRange range low high false s.explicitTags } t = 0 :=
    getMinAge_of_mem (e := ⟨t, 0⟩) hd
      (mem_insertRange.mpr (.inl ((hmem _).mpr ⟨rfl, ht.1, ht.2⟩)))
  refine ⟨⟨?_, hd, ?_, hw.implicit_le, hw.implicit_lt⟩, ?_, hzero⟩
  · exact sorted_insertRange hw.sorted hsr fun e he => (hmem e).mp he
  · intro e he
    rcases mem_insertRange.mp he with he | ⟨he, _⟩
    · rw [((hmem e).mp he).1]
      exact Nat.pos_of_ne_zero h0
    · exact hw.age_lt e he
  · intro t
    by_cases ht : low ≤ t ∧ t ≤ high
    · rw [hzero t ht]
      exact Nat.zero_le _
    · by_cases hfound : ∃ e ∈ s.explicitTags, e.tag = t
      · obtain ⟨e, he, rfl⟩ := hfound
        have he' : e ∈ insertRange range low high false s.explicitTags :=
          mem_insertRange.mpr (.inr ⟨he, by omega⟩)
        rw [getMinAge_of_mem hw.distinct he]
        exact (getMinAge_of_mem hd he').le
      · have hne : ∀ e ∈ s.explicitTags, e.tag ≠ t := fun e he h => hfound ⟨e, he, h⟩
        rw [getMinAge_of_absent hne, getMinAge_of_absent]
        intro e he
        rcases mem_insertRange.mp he with he | ⟨he, _⟩
        · have := (hmem e).mp he
          rintro rfl
          exact ht this.2
        · exact hne e he

theorem getMinAge_top {s : LruMinAgeAbstractCache} (hw : WellFormed T s)
    (h0 : s.ageOfImplicitTags = 0) (t : ℕ) : getMinAge s t = 0 := by
  have hnone : ∀ e ∈ s.explicitTags, e.tag ≠ t := by
    intro e he
    have := hw.age_lt e he
    omega
  rw [getMinAge_of_absent hnone, h0]

/-- The only reason why an unknown access has no result is the last tag. -/
theorem potentialUpdate_ok {s : LruMinAgeAbstractCache} (hw : WellFormed T s)
    (itv : AddressInterval) (wantReport : Bool) (h : getTag T itv.upper ≠ 2 ^ 32 - 1) :
    ∃ s' report, potentialUpdate T s itv wantReport = .ok (s', report) := by
  simp only [potentialUpdate]
  split_ifs with h0 hlarge
  · have hnil : s.explicitTags = [] := by
      apply List.eq_nil_iff_forall_not_mem.mpr
      intro e he
      have := hw.age_lt e he
      omega
    exact ⟨_, _, by rw [hnil]; rfl⟩
  · exact ⟨_, _, rfl⟩
  · rw [tagRange, if_neg h]
    exact ⟨_, _, rfl⟩

theorem potentialUpdate_spec {s s' : LruMinAgeAbstractCache} (hw : WellFormed T s)
    {itv : AddressInterval} {wantReport : Bool} {report : Option UpdateReport}
    (h : potentialUpdate T s itv wantReport = .ok (s', report)) :
    Lowered T (fun t => getTag T itv.lower ≤ t ∧ t ≤ getTag T itv.upper) s s' := by
  simp only [potentialUpdate] at h
  split_ifs at h with h0 hlarge
  · obtain ⟨_, _, h⟩ := bind_eq_ok.mp h
    cases h
    exact ⟨hw, fun _ => le_rfl, fun t _ => getMinAge_top hw h0 t⟩
  · cases h
    have hzero (t : ℕ) : getMinAge ⟨[], 0⟩ t = 0 := getMinAge_top (T := T) wellFormed_top rfl t
    exact ⟨wellFormed_top, fun t => (hzero t).trans_le (Nat.zero_le _), fun t _ => hzero t⟩
  · obtain ⟨range, hrange, h⟩ := bind_eq_ok.mp h
    cases h
    exact lowered_insertRange hw h0 hrange

/-- An unknown access reports no evictions. -/
theorem potentialUpdate_report {s s' : LruMinAgeAbstractCache} {itv : AddressInterval}
    {report : Option UpdateReport} (h : potentialUpdate T s itv true = .ok (s', report)) :
    ∃ introduced, report = some (.lruMinAge [] false introduced) := by
  simp only [potentialUpdate] at h
  split_ifs at h with h0 hlarge
  · obtain ⟨_, _, h⟩ := bind_eq_ok.mp h
    cases h
    exact ⟨false, rfl⟩
  · cases h
    exact ⟨true, rfl⟩
  · obtain ⟨range, _, h⟩ := bind_eq_ok.mp h
    cases h
    exact ⟨false, rfl⟩

/-- The common bound becomes 0 when the interval has too many tags. -/
theorem implicit_of_potentialUpdate {s s' : LruMinAgeAbstractCache} {itv : AddressInterval}
    {report : Option UpdateReport} (h : potentialUpdate T s itv true = .ok (s', report)) :
    s'.ageOfImplicitTags ≤ s.ageOfImplicitTags ∧
      (maxWorthwhileTags < toUnsigned (getTag T itv.upper - getTag T itv.lower + 1) →
        s'.ageOfImplicitTags = 0) := by
  simp only [potentialUpdate] at h
  split_ifs at h with h0 hlarge
  · obtain ⟨_, _, h⟩ := bind_eq_ok.mp h
    cases h
    exact ⟨le_rfl, fun _ => h0⟩
  · cases h
    exact ⟨Nat.zero_le _, fun _ => rfl⟩
  · obtain ⟨range, _, h⟩ := bind_eq_ok.mp h
    cases h
    exact ⟨le_rfl, fun hlarge' => absurd hlarge' hlarge⟩

/-! ## join -/

/-- The state of the join loop: `px` and `py` are consumed, `rx` and `ry` left
and `o` is output. -/
structure JoinInvariant (px rx py ry o : List AgedTag) : Prop where
  sorted_left : Sorted (px ++ rx)
  sorted_right : Sorted (py ++ ry)
  distinct_left : Distinct (px ++ rx)
  distinct_right : Distinct (py ++ ry)
  sorted : Sorted o
  distinct : Distinct o
  before : ∀ e ∈ o, ∀ z, z ∈ rx ∨ z ∈ ry → e.age ≤ z.age ∧ (e.Before z ∨ e.tag = z.tag)
  mem : ∀ e ∈ o, e ∈ px ∨ e ∈ py
  covered : ∀ z, z ∈ px ∨ z ∈ py → ∃ e ∈ o, e.tag = z.tag ∧ e.age ≤ z.age

namespace JoinInvariant

variable {px rx py ry o : List AgedTag} {z : AgedTag}

theorem symm (h : JoinInvariant px rx py ry o) : JoinInvariant py ry px rx o where
  sorted_left := h.sorted_right
  sorted_right := h.sorted_left
  distinct_left := h.distinct_right
  distinct_right := h.distinct_left
  sorted := h.sorted
  distinct := h.distinct
  before := fun e he f hf => h.before e he f hf.symm
  mem := fun e he => (h.mem e he).symm
  covered := fun f hf => h.covered f hf.symm

/-- A consumed element whose tag was seen in the other operand is covered. -/
theorem skip (h : JoinInvariant px (z :: rx) py ry o) (hz : z.tag ∈ py.map tag) :
    JoinInvariant (px ++ [z]) rx py ry o where
  sorted_left := by simpa using h.sorted_left
  sorted_right := h.sorted_right
  distinct_left := by simpa using h.distinct_left
  distinct_right := h.distinct_right
  sorted := h.sorted
  distinct := h.distinct
  before := fun e he f hf => h.before e he f (hf.imp_left (List.mem_cons_of_mem z))
  mem := fun e he => (h.mem e he).imp_left (List.mem_append_left _)
  covered := by
    intro f hf
    rw [List.mem_append, List.mem_singleton] at hf
    rcases hf with (hf | rfl) | hf
    · exact h.covered f (.inl hf)
    · obtain ⟨g, hg, hgt⟩ := List.mem_map.mp hz
      obtain ⟨e, he, het, _⟩ := h.covered g (.inr hg)
      exact ⟨e, he, het.trans hgt, (h.before e he f (.inl List.mem_cons_self)).1⟩
    · exact h.covered f (.inr hf)

/-- Any other consumed element is output. -/
theorem output (h : JoinInvariant px (z :: rx) py ry o) (hz : z.tag ∉ py.map tag)
    (hle : ∀ f ∈ ry, z.Before f ∨ z = f) : JoinInvariant (px ++ [z]) rx py ry (o ++ [z]) := by
  have hne : ∀ e ∈ o, e.tag ≠ z.tag := by
    intro e he het
    rcases h.mem e he with hx | hy
    · have hd := h.distinct_left
      rw [Distinct, List.map_append, List.nodup_append'] at hd
      exact hd.2.2 (List.mem_map_of_mem hx) (by simp [het])
    · exact hz (List.mem_map.mpr ⟨e, hy, het⟩)
  have hrest : ∀ f, f ∈ rx ∨ f ∈ ry → z.Before f ∨ z = f := by
    rintro f (hf | hf)
    · have hs := h.sorted_left.append.2.1
      exact .inl ((sorted_cons.mp hs).1 f hf)
    · exact hle f hf
  refine ⟨by simpa using h.sorted_left, h.sorted_right, by simpa using h.distinct_left,
    h.distinct_right, ?_, ?_, ?_, ?_, ?_⟩
  · apply sorted_append.mpr
    refine ⟨h.sorted, List.pairwise_singleton _ _, ?_⟩
    intro e he f hf
    rw [List.mem_singleton.mp hf]
    exact (h.before e he z (.inl List.mem_cons_self)).2.resolve_right (hne e he)
  · unfold Distinct
    rw [List.map_append, List.nodup_append']
    refine ⟨h.distinct, List.nodup_singleton _, ?_⟩
    intro t ht ht'
    obtain ⟨e, he, rfl⟩ := List.mem_map.mp ht
    exact hne e he (by simpa using ht')
  · intro e he f hf
    rcases List.mem_append.mp he with he | he
    · exact h.before e he f (hf.imp_left (List.mem_cons_of_mem z))
    · rw [List.mem_singleton.mp he]
      rcases hrest f hf with hb | rfl
      · exact ⟨hb.age_le, .inl hb⟩
      · exact ⟨le_rfl, .inr rfl⟩
  · intro e he
    rcases List.mem_append.mp he with he | he
    · exact (h.mem e he).imp_left (List.mem_append_left _)
    · exact .inl (List.mem_append_right _ he)
  · intro f hf
    rw [List.mem_append, List.mem_singleton] at hf
    rcases hf with (hf | rfl) | hf
    · obtain ⟨e, he, hrest⟩ := h.covered f (.inl hf)
      exact ⟨e, List.mem_append_left _ he, hrest⟩
    · exact ⟨f, by simp, rfl, le_rfl⟩
    · obtain ⟨e, he, hrest⟩ := h.covered f (.inr hf)
      exact ⟨e, List.mem_append_left _ he, hrest⟩

/-- One round that consumes the first remaining element of an operand. -/
theorem round (h : JoinInvariant px (z :: rx) py ry o) (hle : ∀ f ∈ ry, z.Before f ∨ z = f) :
    ∃ o', outputUnseen (px ++ z :: rx) px.length ((py ++ ry).take py.length) o = .ok o' ∧
      JoinInvariant (px ++ [z]) rx py ry o' := by
  have hread : read (px ++ z :: rx) px.length = .ok z := read_append px rx z rfl
  simp only [outputUnseen, hread, ok_bind, List.take_left' rfl]
  split_ifs with hz
  · exact ⟨o, rfl, h.skip hz⟩
  · exact ⟨o ++ [z], rfl, h.output hz hle⟩

end JoinInvariant

theorem joinLoop_spec {x y : List AgedTag} (fuel : ℕ) (px rx py ry o : List AgedTag)
    (hx : x = px ++ rx) (hy : y = py ++ ry) (hfuel : rx.length + ry.length ≤ fuel)
    (h : JoinInvariant px rx py ry o) :
    ∃ o', joinLoop x y fuel px.length py.length o = .ok o' ∧ JoinInvariant x [] y [] o' := by
  induction fuel generalizing px rx py ry o with
  | zero =>
    have hrx : rx = [] := List.eq_nil_of_length_eq_zero (by omega)
    have hry : ry = [] := List.eq_nil_of_length_eq_zero (by omega)
    subst rx ry
    rw [List.append_nil] at hx hy
    subst px py
    exact ⟨o, rfl, h⟩
  | succ fuel ih =>
    -- both rounds continue with the induction hypothesis for the shorter rest
    have consumeLeft (z : AgedTag) (rx' : List AgedTag) (hr : rx = z :: rx')
        (hle : ∀ f ∈ ry, z.Before f ∨ z = f)
        (hg : xElemIsLesser x y px.length py.length = .ok true) :
        ∃ o', joinLoop x y (fuel + 1) px.length py.length o = .ok o' ∧
          JoinInvariant x [] y [] o' := by
      subst rx
      obtain ⟨o₁, hout, h₁⟩ := h.round hle
      rw [← hx, ← hy] at hout
      obtain ⟨o₂, hloop, h₂⟩ := ih (px ++ [z]) rx' py ry o₁ (by simpa using hx) hy
        (by rw [List.length_cons] at hfuel; omega) h₁
      have hne : ¬ (px.length = x.length ∧ py.length = y.length) := by
        rw [hx, List.length_append, List.length_cons]
        omega
      refine ⟨o₂, ?_, h₂⟩
      simp only [joinLoop, hne, if_false, hg, ok_bind, if_true, hout]
      simpa using hloop
    have consumeRight (z : AgedTag) (ry' : List AgedTag) (hr : ry = z :: ry')
        (hle : ∀ f ∈ rx, z.Before f ∨ z = f)
        (hg : xElemIsLesser x y px.length py.length = .ok false) :
        ∃ o', joinLoop x y (fuel + 1) px.length py.length o = .ok o' ∧
          JoinInvariant x [] y [] o' := by
      subst ry
      obtain ⟨o₁, hout, h₁⟩ := h.symm.round hle
      rw [← hx, ← hy] at hout
      obtain ⟨o₂, hloop, h₂⟩ := ih px rx (py ++ [z]) ry' o₁ hx (by simpa using hy)
        (by rw [List.length_cons] at hfuel; omega) h₁.symm
      have hne : ¬ (px.length = x.length ∧ py.length = y.length) := by
        rw [hy, List.length_append, List.length_cons]
        omega
      refine ⟨o₂, ?_, h₂⟩
      simp only [joinLoop, hne, if_false, hg, ok_bind, Bool.false_eq_true, hout]
      simpa using hloop
    cases rx with
    | nil =>
      cases ry with
      | nil =>
        rw [List.append_nil] at hx hy
        subst px py
        refine ⟨o, ?_, h⟩
        simp [joinLoop]
      | cons f ry =>
        apply consumeRight f ry rfl (by simp)
        rw [List.append_nil] at hx
        rw [xElemIsLesser, if_pos (by rw [hx])]
    | cons e rx =>
      have hxl : px.length ≠ x.length := by
        rw [hx, List.length_append, List.length_cons]
        omega
      cases ry with
      | nil =>
        apply consumeLeft e rx rfl (by simp)
        rw [List.append_nil] at hy
        rw [xElemIsLesser, if_neg hxl, if_pos (by rw [hy])]
      | cons f ry =>
        have hyl : py.length ≠ y.length := by
          rw [hy, List.length_append, List.length_cons]
          omega
        have hrx : read x px.length = .ok e := by
          rw [hx]
          exact read_append px rx e rfl
        have hry : read y py.length = .ok f := by
          rw [hy]
          exact read_append py ry f rfl
        have hg : xElemIsLesser x y px.length py.length =
            .ok (decide (e.age < f.age ∨ e.age = f.age ∧ e.tag ≤ f.tag)) := by
          simp only [xElemIsLesser, hxl, hyl, if_false, hrx, hry, ok_bind]
        have first_le {l : List AgedTag} {c d : AgedTag} (hl : Sorted (d :: l))
            (hcd : c.Before d ∨ c = d) : ∀ z ∈ d :: l, c.Before z ∨ c = z := by
          intro z hz
          rcases List.mem_cons.mp hz with rfl | hz
          · exact hcd
          · have hdz := (sorted_cons.mp hl).1 z hz
            rcases hcd with hcd | rfl
            · exact .inl (hcd.trans hdz)
            · exact .inl hdz
        by_cases hc : e.age < f.age ∨ e.age = f.age ∧ e.tag ≤ f.tag
        · apply consumeLeft e rx rfl _ (by rw [hg, decide_eq_true hc])
          apply first_le h.sorted_right.append.2.1
          rcases eq_or_before e f with he | hb | hb
          · exact .inr he
          · exact .inl hb
          · unfold Before at hb
            omega
        · apply consumeRight f ry rfl _ (by rw [hg, decide_eq_false hc])
          apply first_le h.sorted_left.append.2.1
          unfold Before
          omega

theorem joinInvariant_start {x y : LruMinAgeAbstractCache} (hx : WellFormed T x)
    (hy : WellFormed T y) : JoinInvariant [] x.explicitTags [] y.explicitTags [] where
  sorted_left := hx.sorted
  sorted_right := hy.sorted
  distinct_left := hx.distinct
  distinct_right := hy.distinct
  sorted := Sorted.nil
  distinct := Distinct.nil
  before := by simp
  mem := by simp
  covered := by simp

/-- The bounds of a join are below those of its operands, and its explicit tags
are theirs. -/
theorem join_spec {x y : LruMinAgeAbstractCache} (hx : WellFormed T x) (hy : WellFormed T y) :
    ∃ s', join x y = .ok s' ∧ WellFormed T s' ∧
      s'.ageOfImplicitTags = min x.ageOfImplicitTags y.ageOfImplicitTags ∧
      (∀ t, getMinAge s' t ≤ getMinAge x t ∧ getMinAge s' t ≤ getMinAge y t) ∧
      ∀ e ∈ s'.explicitTags, e ∈ x.explicitTags ∨ e ∈ y.explicitTags := by
  obtain ⟨o, hloop, h⟩ := joinLoop_spec (x.explicitTags.length + y.explicitTags.length) []
    x.explicitTags [] y.explicitTags [] rfl rfl le_rfl (joinInvariant_start hx hy)
  generalize hn : min x.ageOfImplicitTags y.ageOfImplicitTags = n
  have hnx : n ≤ x.ageOfImplicitTags := hn ▸ min_le_left _ _
  have hny : n ≤ y.ageOfImplicitTags := hn ▸ min_le_right _ _
  have hwf : WellFormed T ⟨o.filter fun e => e.age < n, n⟩ :=
    wellFormed_filter h.sorted h.distinct (hnx.trans hx.implicit_le) (hnx.trans_lt hx.implicit_lt)
  refine ⟨⟨o.filter fun e => e.age < n, n⟩, ?_, hwf, rfl, ?_⟩
  · simp only [List.length_nil, List.nil_append] at hloop
    simp only [join, hloop, ok_bind, hn, removeRedundantTags_eq h.sorted]
  -- an output element bounds both operands, whether it is kept or redundant
  have bound {s : LruMinAgeAbstractCache} (hs : WellFormed T s) (hns : n ≤ s.ageOfImplicitTags)
      (hcov : ∀ z ∈ s.explicitTags, ∃ e ∈ o, e.tag = z.tag ∧ e.age ≤ z.age) (t : ℕ) :
      getMinAge ⟨o.filter fun e => e.age < n, n⟩ t ≤ getMinAge s t := by
    have hle : getMinAge ⟨o.filter fun e => e.age < n, n⟩ t ≤ n := hwf.getMinAge_le t
    by_cases hfound : ∃ z ∈ s.explicitTags, z.tag = t
    · obtain ⟨z, hz, rfl⟩ := hfound
      rw [getMinAge_of_mem hs.distinct hz]
      obtain ⟨e, he, het, hage⟩ := hcov z hz
      by_cases hen : e.age < n
      · have hmem : e ∈ o.filter (fun e => e.age < n) :=
          List.mem_filter.mpr ⟨he, by simpa using hen⟩
        rw [← het, getMinAge_of_mem hwf.distinct hmem]
        exact hage
      · omega
    · rw [getMinAge_of_absent fun z hz h => hfound ⟨z, hz, h⟩]
      exact hle.trans hns
  refine ⟨fun t => ⟨bound hx hnx (fun z hz => h.covered z (.inl hz)) t,
    bound hy hny (fun z hz => h.covered z (.inr hz)) t⟩, ?_⟩
  exact fun e he => h.mem e (List.mem_filter.mp he).1

end LruMinAgeAbstractCache

end Llvmta
