import Llvmta.Memory.LruMaxAgeAbstractCache

/-!
# What the must analysis does to its entries

The arrays of a well-formed state hold a list of entries in front of unused
elements. This module turns each loop of the must analysis into an operation on
that list: an update of an entry of age `a` merges the aged entries in front of
it into those behind it.
-/

namespace Llvmta

open Checked AgedTag

namespace LruMaxAgeAbstractCache

variable {T : CacheTraits} {A : ℕ}

/-- The first elements of the arrays are the entries `l`. -/
structure Holds (A : ℕ) (s : LruMaxAgeAbstractCache) (l : List AgedTag) : Prop where
  size_eq : s.size = l.length
  tags_eq : ∃ junk, s.tags = l.map tag ++ junk ∧ l.length + junk.length = A
  ages_eq : ∃ junk, s.ages = l.map age ++ junk ∧ l.length + junk.length = A

/-- The entries of a reachable state. Ways of 256 or more do not fit the fields
of the state, which then stays empty. -/
structure WellFormed (A : ℕ) (l : List AgedTag) : Prop where
  sorted : Sorted l
  distinct : Distinct l
  age_lt : ∀ e ∈ l, e.age < A
  small : A < 256 ∨ l = []

theorem Holds.length_le {s : LruMaxAgeAbstractCache} {l : List AgedTag} (h : Holds A s l) :
    l.length ≤ A := by
  obtain ⟨junk, _, hlen⟩ := h.tags_eq
  omega

theorem holds_new (assumeAnEmptyCache : Bool) :
    Holds T.associativity (new T assumeAnEmptyCache) [] where
  size_eq := rfl
  tags_eq := ⟨_, rfl, by simp⟩
  ages_eq := ⟨_, rfl, by simp⟩

theorem wellFormed_nil : WellFormed A [] where
  sorted := Sorted.nil
  distinct := Distinct.nil
  age_lt := by simp
  small := .inr rfl

/-! ## The search -/

theorem search_absent {tag : ℕ} {l : List AgedTag} (h : ∀ e ∈ l, e.tag ≠ tag) (rest : List ℕ) :
    search (l.map AgedTag.tag ++ rest) tag l.length = .ok l.length := by
  have hs := findIndex_absent (p := fun t => decide (t = tag)) (l := l.map AgedTag.tag)
    (by simpa using h) rest
  rwa [List.length_map] at hs

theorem search_found {l : List AgedTag} {e : AgedTag} (h : ∀ f ∈ l, f.tag ≠ e.tag)
    (rest : List ℕ) (n : ℕ) :
    search (l.map AgedTag.tag ++ e.tag :: rest) e.tag (l.length + (n + 1)) = .ok l.length := by
  have hs := findIndex_found (p := fun t => decide (t = e.tag)) (l := l.map AgedTag.tag)
    (by simpa using h) (decide_eq_true rfl) rest n
  rwa [List.length_map] at hs

/-! ## Eviction -/

/-- The entries an unassumed miss leaves in the set. -/
def survivors (A : ℕ) (l : List AgedTag) : List AgedTag := l.filter fun e => e.age ≠ A - 1

def oldest (A : ℕ) (l : List AgedTag) : List AgedTag := l.filter fun e => e.age = A - 1

theorem survivors_append_oldest {l : List AgedTag} (hs : Sorted l) (ha : ∀ e ∈ l, e.age < A) :
    survivors A l ++ oldest A l = l := by
  induction l with
  | nil => rfl
  | cons e l ih =>
    obtain ⟨hel, hl⟩ := sorted_cons.mp hs
    have ih := ih hl fun f hf => ha f (List.mem_cons_of_mem e hf)
    have he := ha e List.mem_cons_self
    by_cases h : e.age = A - 1
    · have hall : ∀ f ∈ l, f.age = A - 1 := by
        intro f hf
        have := (hel f hf).age_le
        have := ha f (List.mem_cons_of_mem e hf)
        omega
      have hnone : survivors A (e :: l) = [] :=
        List.filter_eq_nil_iff.mpr fun f hf => by
          rcases List.mem_cons.mp hf with rfl | hf
          · simp [h]
          · simp [hall f hf]
      have hsome : oldest A (e :: l) = e :: l :=
        List.filter_eq_self.mpr fun f hf => by
          rcases List.mem_cons.mp hf with rfl | hf
          · simp [h]
          · simp [hall f hf]
      rw [hnone, hsome, List.nil_append]
    · have h₁ : survivors A (e :: l) = e :: survivors A l := by simp [survivors, h]
      have h₂ : oldest A (e :: l) = oldest A l := by simp [oldest, h]
      rw [h₁, h₂, List.cons_append, ih]

/-- Evicting the entries `q` of age `A - 1` lets the cursor stop behind `p`. -/
theorem evictOldest_eq {p q : List AgedTag} (hp : ∀ e ∈ p, e.age ≠ A - 1)
    (hq : ∀ e ∈ q, e.age = A - 1) {s : LruMaxAgeAbstractCache} {u v : List ℕ} {n : ℕ}
    (ht : s.tags = (p ++ q).map tag ++ u) (ha : s.ages = (p ++ q).map age ++ v)
    (hn : n < 256) (hs : s.size = toWay (n + q.length)) (evicted : List ℕ) :
    evictOldest A (p.length + q.length) s evicted =
      .ok (p.length, { s with size := n }, q.map tag ++ evicted) := by
  induction q using List.reverseRecOn generalizing s u v evicted with
  | nil =>
    have hs' : { s with size := n } = s := by
      cases s
      simpa [hn] using hs.symm
    rw [hs', List.length_nil, Nat.add_zero]
    cases p using List.reverseRecOn with
    | nil => rfl
    | append_singleton p e =>
      have he := hp e (by simp)
      have hread : read s.ages p.length = .ok e.age := by
        rw [ha]
        simpa using read_append (p.map age) v e.age (i := p.length) (by simp)
      rw [List.length_append, List.length_singleton, evictOldest, hread]
      simp [he]
  | append_singleton q e ih =>
    have he := hq e (by simp)
    have hage : read s.ages (p.length + q.length) = .ok e.age := by
      rw [ha]
      simpa using read_append ((p ++ q).map age) v e.age (i := p.length + q.length) (by simp)
    have htag : read s.tags (p.length + q.length) = .ok e.tag := by
      rw [ht]
      simpa using read_append ((p ++ q).map tag) u e.tag (i := p.length + q.length) (by simp)
    have hsize : toWay (s.size + 255) = toWay (n + q.length) := by
      rw [hs]
      simp only [toWay, List.length_append, List.length_singleton]
      omega
    have ih := ih (fun f hf => hq f (by simp [hf]))
      (s := { s with size := toWay (s.size + 255) }) (u := e.tag :: u) (v := e.age :: v)
      (by simpa using ht) (by simpa using ha) hsize (e.tag :: evicted)
    rw [List.length_append, List.length_singleton, ← Nat.add_assoc, evictOldest, hage]
    simp only [ok_bind, he, if_true, htag]
    rw [ih]
    simp

/-! ## Ageing in place -/

theorem mergeEqual_eq {a cur : ℕ} (r : List AgedTag) (hr : ∀ e ∈ r, a ≤ e.age)
    {x y u v : List ℕ} (h : ℕ) (hxy : x.length = y.length) :
    mergeEqual (y ++ a :: (r.map age ++ v)) a cur r.length x.length
        (x ++ h :: (r.map tag ++ u)) =
      .ok (x ++ ((insertMerged ⟨cur, a⟩ r).map tag ++ u)) := by
  induction r generalizing x y h with
  | nil =>
    rw [List.length_nil, mergeEqual, write_append x _ h cur rfl]
    rfl
  | cons e r ih =>
    have he := hr e List.mem_cons_self
    have hage : read (y ++ a :: e.age :: (r.map age ++ v)) (x.length + 1) = .ok e.age := by
      simpa using read_append (y ++ [a]) (r.map age ++ v) e.age (i := x.length + 1) (by simp [hxy])
    have htag : read (x ++ h :: e.tag :: (r.map tag ++ u)) (x.length + 1) = .ok e.tag := by
      simpa using read_append (x ++ [h]) (r.map tag ++ u) e.tag (i := x.length + 1) (by simp)
    have hwrite (c : ℕ) : write (x ++ h :: e.tag :: (r.map tag ++ u)) x.length c =
        .ok (x ++ c :: e.tag :: (r.map tag ++ u)) := write_append x _ h c rfl
    simp only [List.length_cons, mergeEqual, List.map_cons, List.cons_append, hage, ok_bind]
    by_cases hea : e.age = a
    · by_cases hlt : e.tag < cur
      · have ih := ih (fun f hf => hr f (List.mem_cons_of_mem e hf)) (x := x ++ [e.tag])
          (y := y ++ [a]) e.tag (by simp [hxy])
        have hins : insertMerged ⟨cur, a⟩ (e :: r) = e :: insertMerged ⟨cur, a⟩ r := by
          simp [insertMerged, hea, hlt]
        simp only [hea, if_true, htag, ok_bind, hlt, hwrite, hins, List.map_cons, List.cons_append]
        simpa using ih
      · have hins : insertMerged ⟨cur, a⟩ (e :: r) = ⟨cur, a⟩ :: e :: r := by
          simp [insertMerged, hlt]
        simp only [hea, if_true, htag, ok_bind, hlt, if_false, hwrite, hins, List.map_cons,
          List.cons_append]
    · have hins : insertMerged ⟨cur, a⟩ (e :: r) = ⟨cur, a⟩ :: e :: r := by
        simp only [insertMerged]
        rw [if_neg]
        omega
      simp only [hea, if_false, hwrite, hins, List.map_cons, List.cons_append]

/-- The entries `p` in front of the cursor can be merged into `r` one by one. -/
def Mergeable (a : ℕ) (p r : List AgedTag) : Prop :=
  Sorted p ∧ (∀ e ∈ p, e.age ≤ a) ∧
    ∀ e ∈ p, ∀ f ∈ r, (bump a e).age ≤ f.age ∧ ((bump a e).age = a ∨ (bump a e).Before f)

theorem Mergeable.of_sorted {a : ℕ} {p r : List AgedTag} (hp : Sorted p)
    (hpa : ∀ e ∈ p, e.age ≤ a) (hra : ∀ f ∈ r, a ≤ f.age) : Mergeable a p r := by
  refine ⟨hp, hpa, ?_⟩
  intro e he f hf
  have hle := bump_age_le (hpa e he)
  have hfa := hra f hf
  refine ⟨hle.trans hfa, ?_⟩
  unfold Before
  omega

theorem Mergeable.step {a : ℕ} {p r : List AgedTag} {e : AgedTag}
    (h : Mergeable a (p ++ [e]) r) : Mergeable a p (insertMerged (bump a e) r) := by
  obtain ⟨hs, ha, hr⟩ := h
  obtain ⟨hp, _, hpe⟩ := hs.append
  refine ⟨hp, fun f hf => ha f (by simp [hf]), ?_⟩
  intro f hf g hg
  have hfe := hpe f hf e (by simp)
  rcases mem_insertMerged.mp hg with rfl | hg
  · exact ⟨bump_age_mono a hfe.age_le, bump_before hfe (ha e (by simp))⟩
  · exact hr f (by simp [hf]) g hg

/-- Behind the cursor the element `e`, just aged, is merged into the rest. -/
theorem keepSorted_eq {a : ℕ} {e : AgedTag} {r : List AgedTag}
    (hr : ∀ f ∈ r, e.age ≤ f.age ∧ (e.age = a ∨ e.Before f)) {x y u v : List ℕ}
    (hxy : x.length = y.length) {n : ℕ} (hn : n = x.length + 1 + r.length) :
    keepSorted a n x.length (y ++ e.age :: (r.map age ++ v))
        (x ++ e.tag :: (r.map tag ++ u)) =
      .ok (x ++ ((insertMerged e r).map tag ++ u)) := by
  have hra : read (y ++ e.age :: (r.map age ++ v)) x.length = .ok e.age := read_append _ _ _ hxy
  have hrt : read (x ++ e.tag :: (r.map tag ++ u)) x.length = .ok e.tag := read_append _ _ _ rfl
  simp only [keepSorted, hra, hrt, ok_bind]
  split_ifs with hage
  · have hsize : n - 1 - x.length = r.length := by omega
    have he : e = ⟨e.tag, a⟩ := congrArg (AgedTag.mk e.tag) hage
    rw [hsize, hage, mergeEqual_eq r (fun f hf => hage ▸ (hr f hf).1) e.tag hxy, ← he]
  · rw [insertMerged_of_before fun f hf => (hr f hf).2.resolve_left hage]
    rfl

/-- The shift loop merges the aged entries in front of the cursor into the rest
and leaves the first element of the arrays free. -/
theorem shiftRight_eq {a : ℕ} (ha : a < 256) (p r : List AgedTag) (hm : Mergeable a p r)
    (u v : List ℕ) (h g : ℕ) {size : ℕ} (hsize : size = p.length + 1 + r.length) :
    ∃ h' g', shiftRight a size p.length (p.map tag ++ h :: (r.map tag ++ u))
        (p.map age ++ g :: (r.map age ++ v)) =
      .ok (h' :: ((mergeAll (p.map (bump a)) r).map tag ++ u),
        g' :: ((mergeAll (p.map (bump a)) r).map age ++ v)) := by
  induction p using List.reverseRecOn generalizing r h g with
  | nil => exact ⟨h, g, rfl⟩
  | append_singleton p e ih =>
    obtain ⟨_, hpa, hpr⟩ := id hm
    have hlen : (insertMerged (bump a e) r).length = r.length + 1 :=
      (insertMerged_perm _ _).length_eq
    rw [List.length_append, List.length_singleton] at hsize
    obtain ⟨h', g', ih⟩ := ih (insertMerged (bump a e) r) hm.step e.tag e.age (by omega)
    refine ⟨h', g', ?_⟩
    have hway : toWay (e.age + if e.age < a then 1 else 0) = (bump a e).age :=
      toWay_of_lt ((bump_age_le (hpa e (by simp))).trans_lt ha)
    have hrt : read ((p ++ [e]).map tag ++ h :: (r.map tag ++ u)) p.length = .ok e.tag := by
      simpa using read_append (p.map tag) (h :: (r.map tag ++ u)) e.tag (i := p.length) (by simp)
    have hra : read ((p ++ [e]).map age ++ g :: (r.map age ++ v)) p.length = .ok e.age := by
      simpa using read_append (p.map age) (g :: (r.map age ++ v)) e.age (i := p.length) (by simp)
    have hwt : write ((p ++ [e]).map tag ++ h :: (r.map tag ++ u)) (p.length + 1) e.tag =
        .ok (p.map tag ++ e.tag :: e.tag :: (r.map tag ++ u)) := by
      simpa using write_append (p.map tag ++ [e.tag]) (r.map tag ++ u) h e.tag
        (i := p.length + 1) (by simp)
    have hwa : write ((p ++ [e]).map age ++ g :: (r.map age ++ v)) (p.length + 1)
          (bump a e).age =
        .ok (p.map age ++ e.age :: (bump a e).age :: (r.map age ++ v)) := by
      simpa using write_append (p.map age ++ [e.age]) (r.map age ++ v) g (bump a e).age
        (i := p.length + 1) (by simp)
    have hkeep : keepSorted a size (p.length + 1)
          (p.map age ++ e.age :: (bump a e).age :: (r.map age ++ v))
          (p.map tag ++ e.tag :: e.tag :: (r.map tag ++ u)) =
        .ok (p.map tag ++ e.tag :: ((insertMerged (bump a e) r).map tag ++ u)) := by
      simpa using keepSorted_eq (e := bump a e) (fun f hf => hpr e (by simp) f hf)
        (x := p.map tag ++ [e.tag]) (y := p.map age ++ [e.age]) (u := u) (v := v) (by simp)
        (n := size) (by simp; omega)
    have hages : (insertMerged (bump a e) r).map age = (bump a e).age :: r.map age :=
      map_age_insertMerged fun f hf => (hpr e (by simp) f hf).1
    rw [List.length_append, List.length_singleton, shiftRight]
    simp only [hrt, hra, hwt, hway, hwa, hkeep, ok_bind]
    rw [hages] at ih
    rw [List.map_append, List.map_singleton, mergeAll, List.foldr_append]
    exact ih

theorem ageAll_eq (l : List AgedTag) (hl : ∀ e ∈ l, e.age < 255) (v : List ℕ) :
    ageAll l.length (l.map age ++ v) = .ok ((l.map fun e => e.age + 1) ++ v) := by
  induction l using List.reverseRecOn generalizing v with
  | nil => rfl
  | append_singleton l e ih =>
    have he : toWay (e.age + 1) = e.age + 1 := toWay_of_lt (by have := hl e (by simp); omega)
    have hread : read ((l ++ [e]).map age ++ v) l.length = .ok e.age := by
      simpa using read_append (l.map age) v e.age (i := l.length) (by simp)
    have hwrite : write ((l ++ [e]).map age ++ v) l.length (e.age + 1) =
        .ok (l.map age ++ (e.age + 1) :: v) := by
      simpa using write_append (l.map age) v e.age (e.age + 1) (i := l.length) (by simp)
    have ih := ih (fun f hf => hl f (by simp [hf])) ((e.age + 1) :: v)
    rw [List.length_append, List.length_singleton, ageAll]
    simp only [hread, ok_bind, he, hwrite]
    simpa using ih

/-! ## Inserting the accessed tag -/

/-- The arrays hold `p`, a free element and `r`. -/
structure Gap (A : ℕ) (s : LruMaxAgeAbstractCache) (p r : List AgedTag) : Prop where
  size_eq : s.size = p.length + 1 + r.length
  tags_eq : ∃ h u, s.tags = p.map tag ++ h :: (r.map tag ++ u) ∧
    p.length + 1 + r.length + u.length = A
  ages_eq : ∃ g v, s.ages = p.map age ++ g :: (r.map age ++ v) ∧
    p.length + 1 + r.length + v.length = A

/-- An accessed entry leaves its place. -/
theorem Holds.gap {s : LruMaxAgeAbstractCache} {p r : List AgedTag} {e : AgedTag}
    (h : Holds A s (p ++ e :: r)) : Gap A s p r := by
  obtain ⟨hs, ⟨u, ht, hu⟩, ⟨v, ha, hv⟩⟩ := h
  simp only [List.length_append, List.length_cons] at hs hu hv
  refine ⟨by omega, ⟨e.tag, u, by simpa using ht, by omega⟩, ⟨e.age, v, by simpa using ha, ?_⟩⟩
  omega

/-- The place behind the entries is free when others are evicted or ways are left. -/
theorem Holds.gap_end {s : LruMaxAgeAbstractCache} {p q : List AgedTag}
    (h : Holds A s (p ++ q)) (hp : p.length < A) :
    Gap A { s with size := p.length + 1 } p [] := by
  obtain ⟨_, ⟨u, ht, hu⟩, ⟨v, ha, hv⟩⟩ := h
  rw [List.length_append] at hu hv
  have split (w : List ℕ) (hw : w.length + p.length = A) : ∃ x y, w = x :: y := by
    cases w with
    | nil => simp at hw; omega
    | cons x y => exact ⟨x, y, rfl⟩
  obtain ⟨x, y, hxy⟩ := split (q.map tag ++ u) (by simp; omega)
  obtain ⟨z, w, hzw⟩ := split (q.map age ++ v) (by simp; omega)
  refine ⟨by simp, ⟨x, y, ?_, ?_⟩, ⟨z, w, ?_, ?_⟩⟩
  · simp only [ht, List.map_append, List.append_assoc, hxy, List.map_nil, List.nil_append]
  · have := congrArg List.length hxy
    simp only [List.length_append, List.length_map, List.length_cons, List.length_nil] at *
    omega
  · simp only [ha, List.map_append, List.append_assoc, hzw, List.map_nil, List.nil_append]
  · have := congrArg List.length hzw
    simp only [List.length_append, List.length_map, List.length_cons, List.length_nil] at *
    omega

/-- The entries after an access to `tag` at age `a`, with the entries `p` in
front of it and `r` behind. -/
def touched (a tag : ℕ) (p r : List AgedTag) : List AgedTag :=
  ⟨tag, 0⟩ :: mergeAll (p.map (bump a)) r

theorem length_touched (a tag : ℕ) (p r : List AgedTag) :
    (touched a tag p r).length = p.length + 1 + r.length := by
  rw [touched, List.length_cons, (mergeAll_perm _ _).length_eq, List.length_append,
    List.length_map]
  omega

theorem mem_touched {a tag : ℕ} {p r : List AgedTag} {e : AgedTag} :
    e ∈ touched a tag p r ↔ e = ⟨tag, 0⟩ ∨ (∃ f ∈ p, bump a f = e) ∨ e ∈ r := by
  rw [touched, List.mem_cons, mem_mergeAll, List.mem_map]

theorem insertFront_eq {s : LruMaxAgeAbstractCache} {p r : List AgedTag}
    (h : Gap T.associativity s p r) {a : ℕ} (ha : a < 256) (hm : Mergeable a p r) (tag : ℕ) :
    ∃ s', insertFront T s tag p.length a = .ok s' ∧
      Holds T.associativity s' (touched a tag p r) := by
  obtain ⟨hs, ⟨x, u, ht, hu⟩, ⟨y, v, hv', hv⟩⟩ := h
  have hshift : ∃ x' y', shiftEntries T a s.size p.length s.tags s.ages =
      .ok (x' :: ((mergeAll (p.map (bump a)) r).map AgedTag.tag ++ u),
        y' :: ((mergeAll (p.map (bump a)) r).map age ++ v)) := by
    unfold shiftEntries
    rw [ht, hv']
    split_ifs with hA
    · exact shiftRight_eq ha p r hm u v x y hs
    · have hp : p = [] := List.eq_nil_of_length_eq_zero (by omega)
      subst p
      exact ⟨x, y, rfl⟩
  obtain ⟨x', y', hshift⟩ := hshift
  have hsize : s.size ≤ T.associativity := by omega
  have hlen := length_touched a tag p r
  refine ⟨⟨(touched a tag p r).map AgedTag.tag ++ u, (touched a tag p r).map age ++ v, s.size⟩,
    ?_, ?_⟩
  · have hwt := write_append [] ((mergeAll (p.map (bump a)) r).map AgedTag.tag ++ u) x' tag
      (i := 0) rfl
    have hwa := write_append [] ((mergeAll (p.map (bump a)) r).map age ++ v) y' 0 (i := 0) rfl
    simp only [List.nil_append] at hwt hwa
    simp only [insertFront, hshift, ok_bind, hwt, hwa, hsize, decide_true, assertThat_true]
    rfl
  · exact ⟨by rw [hlen]; exact hs, ⟨u, rfl, by omega⟩, ⟨v, rfl, by omega⟩⟩

end LruMaxAgeAbstractCache

end Llvmta
