import Llvmta.Memory.LruMinAgeAbstractCache

/-!
# What the may analysis does to its entries

Each operation succeeds on a well-formed state and leads to a well-formed one.
An access of age `a` ages the elements of age at most `a`; for the elements of
the accessed age this means that they move behind the accessed element and are
merged with those of the next age, in place.
-/

namespace Llvmta

open Checked AgedTag

namespace LruMinAgeAbstractCache

variable {T : CacheTraits}

/-- The states of the may analysis that can be reached. -/
structure WellFormed (T : CacheTraits) (s : LruMinAgeAbstractCache) : Prop where
  sorted : Sorted s.explicitTags
  distinct : Distinct s.explicitTags
  age_lt : ∀ e ∈ s.explicitTags, e.age < s.ageOfImplicitTags
  implicit_le : s.ageOfImplicitTags ≤ T.associativity
  implicit_lt : s.ageOfImplicitTags < 256

theorem wellFormed_new (assumeAnEmptyCache : Bool) : WellFormed T (new T assumeAnEmptyCache) := by
  have hle : toWay T.associativity ≤ T.associativity := Nat.mod_le _ _
  have hlt := toWay_lt T.associativity
  cases assumeAnEmptyCache
  · exact ⟨Sorted.nil, Distinct.nil, by simp [new], Nat.zero_le _, by simp [new]⟩
  · exact ⟨Sorted.nil, Distinct.nil, by simp [new], hle, hlt⟩

theorem removeRedundantTags_eq {l : List AgedTag} (hs : Sorted l) (n : ℕ) :
    removeRedundantTags ⟨l, n⟩ = .ok ⟨l.filter fun e => e.age < n, n⟩ := by
  have hsplit := hs.split n
  have hp : ∀ e ∈ l.filter fun e => e.age < n, decide (n ≤ e.age) = false := fun e he => by
    simpa using (List.mem_filter.mp he).2
  have hq : ∀ e ∈ l.filter fun e => n ≤ e.age, decide (n ≤ e.age) = true := fun e he =>
    (List.mem_filter.mp he).2
  generalize l.filter (fun e => e.age < n) = p at *
  generalize l.filter (fun e => n ≤ e.age) = q at *
  subst l
  have htrim := trimEnd_eq hp hq []
  rw [List.append_nil, ← List.length_append] at htrim
  have hzero : p.length - (p ++ q).length = 0 := by
    rw [List.length_append]
    omega
  simp only [removeRedundantTags, htrim, ok_bind, resize, List.take_left' rfl, hzero,
    List.replicate_zero, List.append_nil]

/-- Removing redundant tags makes a state well formed. -/
theorem wellFormed_filter {l : List AgedTag} {n : ℕ} (hs : Sorted l) (hd : Distinct l)
    (hle : n ≤ T.associativity) (hlt : n < 256) :
    WellFormed T ⟨l.filter fun e => e.age < n, n⟩ where
  sorted := hs.filter _
  distinct := hd.sublist List.filter_sublist
  age_lt := fun e he => by simpa using (List.mem_filter.mp he).2
  implicit_le := hle
  implicit_lt := hlt

/-! ## The loops of update -/

/-- The element with its age increased. -/
def older (e : AgedTag) : AgedTag := ⟨e.tag, e.age + 1⟩

theorem older_eq_bump {a : ℕ} {e : AgedTag} (h : e.age < a) : older e = bump a e := by
  simp [older, bump, h]

theorem map_older_eq_bump {a : ℕ} {l : List AgedTag} (h : ∀ e ∈ l, e.age < a) :
    l.map older = l.map (bump a) :=
  List.map_congr_left fun e he => older_eq_bump (h e he)

/-- A reported tag is one of the oldest elements behind `p`, and not the accessed one. -/
def EvictedOldest (A n pos : ℕ) (p q : List AgedTag) (v : ℕ) : Prop :=
  n = A ∧ ∃ q₁ f q₂, q = q₁ ++ f :: q₂ ∧ f.tag = v ∧ pos ≠ p.length + q₁.length

theorem oldestLoop_eq {A : ℕ} (n pos : ℕ) {p q : List AgedTag} (hp : ∀ e ∈ p, e.age ≠ A - 1)
    (hq : ∀ e ∈ q, e.age = A - 1) (rest : List AgedTag) (evicted : List ℕ) :
    ∃ evicted', oldestLoop A n pos (p ++ (q ++ rest)) (p.length + q.length) evicted =
      .ok (p.length, evicted') ∧ ∀ v ∈ evicted', v ∈ evicted ∨ EvictedOldest A n pos p q v := by
  induction q using List.reverseRecOn generalizing rest evicted with
  | nil =>
    cases p using List.reverseRecOn with
    | nil => exact ⟨evicted, rfl, fun v hv => .inl hv⟩
    | append_singleton p e =>
      have he := hp e (by simp)
      have hread : read (p ++ e :: rest) p.length = .ok e := read_append p rest e rfl
      exact ⟨evicted, by simp [oldestLoop, hread, he], fun v hv => .inl hv⟩
  | append_singleton q e ih =>
    have he := hq e (by simp)
    have hread : read (p ++ (q ++ [e] ++ rest)) (p.length + q.length) = .ok e := by
      simpa using read_append (p ++ q) rest e (i := p.length + q.length) (by simp)
    obtain ⟨evicted', ih, hevicted⟩ := ih (fun f hf => hq f (by simp [hf])) (e :: rest)
      (if pos ≠ p.length + q.length ∧ n = A then e.tag :: evicted else evicted)
    refine ⟨evicted', ?_, ?_⟩
    · rw [List.length_append, List.length_singleton, ← Nat.add_assoc, oldestLoop, hread]
      simp only [ok_bind, he, if_true]
      simpa using ih
    · intro v hv
      rcases hevicted v hv with hv | ⟨hn, q₁, f, q₂, rfl, htag, hpos⟩
      · split_ifs at hv with hcond
        · rcases List.mem_cons.mp hv with rfl | hv
          · exact .inr ⟨hcond.2, q, e, [], rfl, rfl, hcond.1⟩
          · exact .inl hv
        · exact .inl hv
      · exact .inr ⟨hn, q₁, f, q₂ ++ [e], by simp, htag, hpos⟩

theorem leftLoop_eq {a : ℕ} (ha : a + 1 < 256) {p q : List AgedTag} (hp : ∀ e ∈ p, e.age ≠ a)
    (hq : ∀ e ∈ q, e.age = a) (h : AgedTag) (rest : List AgedTag) :
    ∃ h', leftLoop a (p.length + q.length) (p ++ (q ++ h :: rest)) =
      .ok (p.length, p ++ h' :: (q.map older ++ rest)) := by
  induction q using List.reverseRecOn generalizing h rest with
  | nil =>
    cases p using List.reverseRecOn with
    | nil => exact ⟨h, rfl⟩
    | append_singleton p e =>
      have he := hp e (by simp)
      have hread : read (p ++ e :: h :: rest) p.length = .ok e := read_append p _ e rfl
      exact ⟨h, by simp [leftLoop, hread, he]⟩
  | append_singleton q e ih =>
    have he := hq e (by simp)
    have hread : read (p ++ (q ++ [e] ++ h :: rest)) (p.length + q.length) = .ok e := by
      simpa using read_append (p ++ q) (h :: rest) e (i := p.length + q.length) (by simp)
    have hold : (⟨e.tag, toWay (a + 1)⟩ : AgedTag) = older e := by
      rw [toWay_of_lt ha, older, he]
    have hwrite : write (p ++ (q ++ [e] ++ h :: rest)) (p.length + q.length + 1) (older e) =
        .ok (p ++ (q ++ e :: older e :: rest)) := by
      simpa using write_append (p ++ q ++ [e]) rest h (older e)
        (i := p.length + q.length + 1) (by simp; omega)
    obtain ⟨h', ih⟩ := ih (fun f hf => hq f (by simp [hf])) e (older e :: rest)
    refine ⟨h', ?_⟩
    rw [List.length_append, List.length_singleton, ← Nat.add_assoc, leftLoop, hread]
    simp only [ok_bind, he, if_true, hold, hwrite]
    simpa using ih

theorem rightLoop_eq {a : ℕ} (ha : a + 1 < 256) {q r : List AgedTag}
    (hq : ∀ e ∈ q, e.age = a) (hr : ∀ e ∈ r, e.age ≠ a) (p : List AgedTag) :
    rightLoop a (q.length + r.length) p.length (p ++ (q ++ r)) =
      .ok (p.length + q.length - 1, p ++ (q.map older ++ r)) := by
  induction q generalizing p with
  | nil =>
    cases r with
    | nil => rfl
    | cons e r =>
      have he := hr e (by simp)
      have hread : read (p ++ e :: r) p.length = .ok e := read_append p r e rfl
      simp [rightLoop, hread, he]
  | cons e q ih =>
    have he := hq e (by simp)
    have hlen : (e :: q).length + r.length = (q.length + r.length) + 1 := by
      simp only [List.length_cons]
      omega
    have hread : read (p ++ (e :: q ++ r)) p.length = .ok e := read_append p _ e rfl
    have hold : (⟨e.tag, toWay (a + 1)⟩ : AgedTag) = older e := by
      rw [toWay_of_lt ha, older, he]
    have hwrite : write (p ++ (e :: q ++ r)) p.length (older e) =
        .ok (p ++ older e :: (q ++ r)) := write_append p _ e _ rfl
    have ih := ih (fun f hf => hq f (by simp [hf])) (p ++ [older e])
    rw [hlen, rightLoop, hread]
    simp only [ok_bind, he, if_true, hold, hwrite]
    simp only [List.append_assoc, List.singleton_append, List.length_append, List.length_cons,
      List.length_nil, Nat.zero_add, List.nil_append, List.map_cons, List.cons_append] at ih ⊢
    rw [ih]
    congr 2
    omega

theorem writeTag_eq (p rest : List AgedTag) (e : AgedTag) (tag : ℕ) :
    writeTag (p ++ e :: rest) p.length tag = .ok (p ++ ⟨tag, e.age⟩ :: rest) := by
  simp only [writeTag, read_append p rest e rfl, ok_bind]
  exact write_append p rest e _ rfl

theorem moveTag_eq {a c : ℕ} (r : List AgedTag) (hr : ∀ e ∈ r, a + 1 ≤ e.age)
    (p : List AgedTag) {h : AgedTag} (hh : h.age = a + 1) :
    moveTag a c r.length p.length (p ++ h :: r) = .ok (p ++ insertMerged ⟨c, a + 1⟩ r) := by
  induction r generalizing p h with
  | nil =>
    rw [List.length_nil, moveTag, writeTag_eq, hh]
    rfl
  | cons e r ih =>
    have he := hr e List.mem_cons_self
    have hread : read (p ++ h :: e :: r) (p.length + 1) = .ok e := by
      simpa using read_append (p ++ [h]) r e (i := p.length + 1) (by simp)
    rw [List.length_cons, moveTag, hread, ok_bind, insertMerged]
    by_cases hcur : e.age ≤ a + 1 ∧ e.tag < c
    · have hea : e.age = a + 1 := le_antisymm hcur.1 he
      have hsame : (⟨e.tag, h.age⟩ : AgedTag) = e := by rw [hh, ← hea]
      have ih := ih (fun f hf => hr f (List.mem_cons_of_mem e hf)) (p ++ [e]) hea
      rw [if_pos hcur, if_pos hcur, writeTag_eq, hsame, ok_bind]
      simpa using ih
    · rw [if_neg hcur, if_neg hcur, writeTag_eq, hh]

theorem mergeLoop_eq {a n k : ℕ} {q : List AgedTag} (hq : ∀ e ∈ q, e.age = a + 1)
    {p : List AgedTag} (hk : p.length = k + 1) (r : List AgedTag)
    (hr : ∀ e ∈ r, a + 1 ≤ e.age) (hn : n = p.length + q.length + r.length) :
    mergeLoop a n k q.length (p ++ (q ++ r)) = .ok (p ++ mergeAll q r) := by
  induction q using List.reverseRecOn generalizing r with
  | nil => rfl
  | append_singleton q e ih =>
    have he := hq e (by simp)
    rw [List.length_append, List.length_singleton] at hn
    have hi : k + (q.length + 1) = (p ++ q).length := by
      rw [List.length_append]
      omega
    have hread : read (p ++ (q ++ [e] ++ r)) (p ++ q).length = .ok e := by
      simpa using read_append (p ++ q) r e (i := p.length + q.length) (by simp)
    have hrest : n - 1 - (p ++ q).length = r.length := by
      rw [List.length_append]
      omega
    have hmove : moveTag a e.tag r.length (p ++ q).length (p ++ (q ++ [e] ++ r)) =
        .ok (p ++ (q ++ insertMerged e r)) := by
      have hmerge := moveTag_eq (c := e.tag) r hr (p ++ q) he
      have hsame : (⟨e.tag, a + 1⟩ : AgedTag) = e := by rw [← he]
      rw [hsame] at hmerge
      simpa using hmerge
    have ih := ih (fun f hf => hq f (by simp [hf])) (insertMerged e r)
      (fun f hf => by
        rcases mem_insertMerged.mp hf with rfl | hf
        · exact he.ge
        · exact hr f hf)
      (by rw [(insertMerged_perm e r).length_eq, List.length_cons]; omega)
    rw [List.length_append, List.length_singleton, mergeLoop]
    simp only [hi, hread, ok_bind, hrest, hmove]
    rw [ih, mergeAll, mergeAll, List.foldr_append]
    rfl

theorem shiftLoop_eq {p : List AgedTag} (hp : ∀ e ∈ p, e.age + 1 < 256) (h : AgedTag)
    (rest : List AgedTag) :
    ∃ h', shiftLoop p.length (p ++ h :: rest) = .ok (h' :: (p.map older ++ rest)) := by
  induction p using List.reverseRecOn generalizing h rest with
  | nil => exact ⟨h, rfl⟩
  | append_singleton p e ih =>
    have hold : (⟨e.tag, toWay (e.age + 1)⟩ : AgedTag) = older e := by
      rw [toWay_of_lt (hp e (by simp)), older]
    have hread : read (p ++ [e] ++ h :: rest) p.length = .ok e := by
      simpa using read_append p (h :: rest) e (i := p.length) rfl
    have hwrite : write (p ++ [e] ++ h :: rest) (p.length + 1) (older e) =
        .ok (p ++ e :: older e :: rest) := by
      simpa using write_append (p ++ [e]) rest h (older e) (i := p.length + 1) (by simp)
    obtain ⟨h', ih⟩ := ih (fun f hf => hp f (by simp [hf])) e (older e :: rest)
    refine ⟨h', ?_⟩
    rw [List.length_append, List.length_singleton, shiftLoop, hread]
    simp only [ok_bind, hold, hwrite, ih]
    simp

/-! ## update -/

theorem nextAgeOfImplicitTags_le {a n : ℕ} (hn : n ≤ T.associativity) :
    nextAgeOfImplicitTags T a n ≤ T.associativity := by
  unfold nextAgeOfImplicitTags
  split_ifs with h
  · exact (Nat.mod_le _ _).trans h.2
  · exact hn

theorem nextAgeOfImplicitTags_lt {a n : ℕ} (hn : n < 256) : nextAgeOfImplicitTags T a n < 256 := by
  unfold nextAgeOfImplicitTags
  split_ifs
  · exact toWay_lt _
  · exact hn

/-- The elements `p` move back by one place, age and make room for the accessed tag. -/
structure Room (a tag : ℕ) (l : List AgedTag) (A : ℕ) (p r : List AgedTag) : Prop where
  age_lt : ∀ e ∈ p, e.age + 1 < 256
  sorted : Sorted (p.map older ++ r)
  distinct : Distinct (p.map older ++ r)
  mem : ∀ e ∈ p.map older ++ r, ∃ f ∈ l, f.tag ≠ tag ∧ e = bump (a + 1) f
  of_mem : ∀ f ∈ l, f.tag ≠ tag → (bump (a + 1) f).age < A → bump (a + 1) f ∈ p.map older ++ r

theorem Room.of_sorted {a tag A : ℕ} {l p q r : List AgedTag} (hA : ∀ e ∈ l, e.age < 255)
    (hp : Sorted p) (hpa : ∀ e ∈ p, e.age < a) (hq : Sorted q) (hqa : ∀ e ∈ q, e.age = a)
    (hr : Sorted r) (hra : ∀ e ∈ r, a + 1 ≤ e.age) (hd : Distinct (p ++ (q ++ r)))
    (hl : ∀ e, e ∈ p ++ (q ++ r) ↔ e ∈ l ∧ e.tag ≠ tag) :
    Room a tag l A p (mergeAll (q.map older) r) := by
  have hpb : p.map older = p.map (bump (a + 1)) :=
    map_older_eq_bump fun e he => (hpa e he).trans (Nat.lt_succ_self a)
  have hqb : q.map older = q.map (bump (a + 1)) :=
    map_older_eq_bump fun e he => (hqa e he).trans_lt (Nat.lt_succ_self a)
  have hrb : ∀ e ∈ r, bump (a + 1) e = e := fun e he => by
    simp [bump, Nat.not_lt.mpr (hra e he)]
  have hqo : ∀ e ∈ q.map older, e.age = a + 1 := by
    intro e he
    obtain ⟨f, hf, rfl⟩ := List.mem_map.mp he
    exact congrArg (· + 1) (hqa f hf)
  have hdq : Distinct (q.map older ++ r) := by
    have hd' := hd.sublist (List.sublist_append_right p (q ++ r))
    unfold Distinct at *
    rwa [hqb, List.map_append, map_tag_map_bump, ← List.map_append]
  have hmem : ∀ e, e ∈ p.map older ++ mergeAll (q.map older) r ↔
      ∃ f ∈ p ++ (q ++ r), e = bump (a + 1) f := by
    intro e
    rw [List.mem_append, mem_mergeAll, hpb, hqb, List.mem_map, List.mem_map]
    constructor
    · rintro (⟨f, hf, rfl⟩ | ⟨f, hf, rfl⟩ | he)
      · exact ⟨f, by simp [hf], rfl⟩
      · exact ⟨f, by simp [hf], rfl⟩
      · exact ⟨e, by simp [he], (hrb e he).symm⟩
    · rintro ⟨f, hf, rfl⟩
      rcases List.mem_append.mp hf with hf | hf
      · exact .inl ⟨f, hf, rfl⟩
      · rcases List.mem_append.mp hf with hf | hf
        · exact .inr (.inl ⟨f, hf, rfl⟩)
        · exact .inr (.inr (by rwa [hrb f hf]))
  refine ⟨?_, ?_, ?_, ?_, ?_⟩
  · intro e he
    have := hA e ((hl e).mp (List.mem_append_left _ he)).1
    omega
  · apply sorted_append.mpr
    refine ⟨?_, ?_, ?_⟩
    · rw [hpb]
      exact hp.map_bump fun e he => (hpa e he).trans (Nat.lt_succ_self a)
    · apply sorted_mergeAll _ hr _ hdq
      · apply List.pairwise_of_forall_mem_list
        intro e he f hf
        exact ((hqo e he).trans (hqo f hf).symm).le
      · intro e he f hf
        rw [hqo e he]
        exact hra f hf
    · intro e he f hf
      obtain ⟨g, hg, rfl⟩ := List.mem_map.mp he
      have hga := hpa g hg
      refine .inl ?_
      have hfa : a + 1 ≤ f.age := by
        rcases mem_mergeAll.mp hf with hf | hf
        · exact (hqo f hf).ge
        · exact hra f hf
      unfold older
      dsimp only
      omega
  · have hperm : (p.map older ++ mergeAll (q.map older) r).Perm
        (p.map older ++ (q.map older ++ r)) := (mergeAll_perm _ _).append_left _
    apply Distinct.perm _ hperm.symm
    unfold Distinct at *
    rw [hpb, hqb, List.map_append, List.map_append, map_tag_map_bump, map_tag_map_bump,
      ← List.map_append, ← List.map_append]
    exact hd
  · intro e he
    obtain ⟨f, hf, rfl⟩ := (hmem e).mp he
    obtain ⟨hfl, hft⟩ := (hl f).mp hf
    exact ⟨f, hfl, hft, rfl⟩
  · intro f hf hft _
    exact (hmem _).mpr ⟨f, (hl f).mpr ⟨hf, hft⟩, rfl⟩

theorem makeRoomYounger_eq {l : List AgedTag} (hs : Sorted l) (hd : Distinct l)
    (hA : ∀ e ∈ l, e.age < 255) {left right : List AgedTag} {e : AgedTag}
    (hl : l = left ++ e :: right) (A : ℕ) :
    ∃ p h r, makeRoomYounger e.age left.length l = .ok (p.length, p ++ h :: r, []) ∧
      Room e.age e.tag l A p r := by
  have hs' := hl ▸ hs
  obtain ⟨hsl, hse, hle⟩ := hs'.append
  obtain ⟨her, hsr⟩ := sorted_cons.mp hse
  have hea : e.age + 1 < 256 := by
    have := hA e (by simp [hl])
    omega
  have hleft := hsl.split e.age
  have hright := hsr.split (e.age + 1)
  have hp : ∀ f ∈ left.filter fun f => f.age < e.age, f.age < e.age := fun f hf => by
    simpa using (List.mem_filter.mp hf).2
  have hq₁ : ∀ f ∈ left.filter fun f => e.age ≤ f.age, f.age = e.age := fun f hf => by
    obtain ⟨hfl, hfa⟩ := List.mem_filter.mp hf
    exact le_antisymm (hle f hfl e (by simp)).age_le (by simpa using hfa)
  have hq₂ : ∀ f ∈ right.filter fun f => f.age < e.age + 1, f.age = e.age := fun f hf => by
    obtain ⟨hfr, hfa⟩ := List.mem_filter.mp hf
    have := (her f hfr).age_le
    have : f.age < e.age + 1 := by simpa using hfa
    omega
  have hr : ∀ f ∈ right.filter fun f => e.age + 1 ≤ f.age, e.age + 1 ≤ f.age := fun f hf => by
    simpa using (List.mem_filter.mp hf).2
  generalize left.filter (fun f => f.age < e.age) = p at *
  generalize left.filter (fun f => e.age ≤ f.age) = q₁ at *
  generalize right.filter (fun f => f.age < e.age + 1) = q₂ at *
  generalize right.filter (fun f => e.age + 1 ≤ f.age) = r at *
  subst left right l
  obtain ⟨h, hloop₁⟩ := leftLoop_eq hea (fun f hf => (hp f hf).ne) hq₁ e (q₂ ++ r)
  have hloop₂ := rightLoop_eq hea hq₂ (r := r) (fun f hf => by have := hr f hf; omega)
    (p ++ h :: q₁.map older)
  have hloop₃ := mergeLoop_eq (a := e.age) (n := (p ++ q₁ ++ e :: (q₂ ++ r)).length)
    (k := p.length)
    (q := (q₁ ++ q₂).map older)
    (fun f hf => by
      obtain ⟨g, hg, rfl⟩ := List.mem_map.mp hf
      refine congrArg (· + 1) ?_
      rcases List.mem_append.mp hg with hg | hg
      · exact hq₁ g hg
      · exact hq₂ g hg)
    (p := p ++ [h]) (by simp) r hr (by simp; omega)
  refine ⟨p, h, mergeAll ((q₁ ++ q₂).map older) r, ?_, ?_⟩
  · have hn : (p ++ h :: (q₁.map older ++ (q₂ ++ r))).length - ((p ++ q₁).length + 1) =
        q₂.length + r.length := by
      simp only [List.length_append, List.length_cons, List.length_map]
      omega
    have hi : (p ++ q₁).length + 1 = (p ++ h :: q₁.map older).length := by
      simp only [List.length_append, List.length_cons, List.length_map]
      omega
    have hk : (p ++ h :: q₁.map older).length + q₂.length - 1 - p.length =
        ((q₁ ++ q₂).map older).length := by
      simp only [List.length_append, List.length_cons, List.length_map]
      omega
    have hsize : (p ++ h :: q₁.map older ++ (q₂.map older ++ r)).length =
        (p ++ q₁ ++ e :: (q₂ ++ r)).length := by
      simp only [List.length_append, List.length_cons, List.length_map]
      omega
    have hv : p ++ h :: q₁.map older ++ (q₂.map older ++ r) =
        p ++ [h] ++ ((q₁ ++ q₂).map older ++ r) := by simp
    have hw : p ++ h :: (q₁.map older ++ (q₂ ++ r)) = p ++ h :: q₁.map older ++ (q₂ ++ r) := by
      simp
    have hloop₁ : leftLoop e.age (p ++ q₁).length (p ++ q₁ ++ e :: (q₂ ++ r)) =
        .ok (p.length, p ++ h :: (q₁.map older ++ (q₂ ++ r))) := by simpa using hloop₁
    simp only [makeRoomYounger, hloop₁, ok_bind, hn]
    rw [hw, hi, hloop₂]
    simp only [ok_bind, hk, hsize]
    rw [hv, hloop₃]
    simp
  · have hsub : (p ++ (q₁ ++ q₂ ++ r)).Sublist (p ++ q₁ ++ e :: (q₂ ++ r)) := by
      simp only [List.append_assoc]
      exact ((List.sublist_cons_self e _).append_left q₁).append_left p
    have hsall := List.Pairwise.sublist hsub hs
    obtain ⟨hsp, hsqr, _⟩ := Sorted.append hsall
    obtain ⟨hsq, hsr', _⟩ := Sorted.append hsqr
    apply Room.of_sorted hA hsp hp hsq _ hsr' hr (hd.sublist hsub)
    · intro f
      have hperm : (p ++ q₁ ++ e :: (q₂ ++ r)).Perm (e :: (p ++ q₁ ++ (q₂ ++ r))) :=
        List.perm_middle
      obtain ⟨hne, _⟩ := distinct_cons.mp (hd.perm hperm)
      rw [hperm.mem_iff, List.mem_cons]
      have hassoc : p ++ (q₁ ++ q₂ ++ r) = p ++ q₁ ++ (q₂ ++ r) := by simp
      rw [hassoc]
      constructor
      · exact fun hf => ⟨.inr hf, hne f hf⟩
      · rintro ⟨rfl | hf, hft⟩
        · exact absurd rfl hft
        · exact hf
    · intro f hf
      rcases List.mem_append.mp hf with hf | hf
      · exact hq₁ f hf
      · exact hq₂ f hf

theorem makeRoomOldest_eq {l : List AgedTag} {a tag : ℕ} (n pos : ℕ) (hs : Sorted l)
    (hd : Distinct l) (hA : ∀ e ∈ l, e.age < 255) (hlt : ∀ e ∈ l, e.age < T.associativity)
    (ha : ∀ e ∈ l, e.age ≤ a) (htag : ∀ e ∈ l, e.age ≠ T.associativity - 1 → e.tag ≠ tag) :
    ∃ p h evicted, makeRoomOldest T n pos l = .ok (p.length, p ++ [h], evicted) ∧
      Room a tag l T.associativity p [] ∧ ∀ v ∈ evicted, n = T.associativity ∧
        ∃ l₁ f l₂, l = l₁ ++ f :: l₂ ∧ f.tag = v ∧ f.age = T.associativity - 1 ∧
          pos ≠ l₁.length := by
  have hsplit := hs.split (T.associativity - 1)
  have hp : ∀ e ∈ l.filter fun e => e.age < T.associativity - 1, e.age < T.associativity - 1 :=
    fun e he => by simpa using (List.mem_filter.mp he).2
  have hq : ∀ e ∈ l.filter fun e => T.associativity - 1 ≤ e.age, e.age = T.associativity - 1 :=
    fun e he => by
      obtain ⟨hel, hea⟩ := List.mem_filter.mp he
      have := hlt e hel
      have : T.associativity - 1 ≤ e.age := by simpa using hea
      omega
  generalize l.filter (fun e => e.age < T.associativity - 1) = p at *
  generalize l.filter (fun e => T.associativity - 1 ≤ e.age) = q at *
  subst l
  obtain ⟨evicted, hloop, hevicted⟩ := oldestLoop_eq (A := T.associativity) n pos
    (fun e he => (hp e he).ne) hq [] []
  rw [List.append_nil, ← List.length_append] at hloop
  have hresize : ∃ h, resize (p ++ q) (p.length + 1) ⟨0, 0⟩ = p ++ [h] := by
    cases q with
    | nil =>
      refine ⟨⟨0, 0⟩, ?_⟩
      simp [resize]
    | cons e q =>
      refine ⟨e, ?_⟩
      have hzero : p.length + 1 - (p ++ e :: q).length = 0 := by
        rw [List.length_append, List.length_cons]
        omega
      have htake : (p ++ e :: q).take (p.length + 1) = p ++ [e] := by
        rw [List.take_append]
        simp
      rw [resize, hzero, htake, List.replicate_zero, List.append_nil]
  obtain ⟨h, hresize⟩ := hresize
  have hsub : p.Sublist (p ++ q) := List.sublist_append_left p q
  have hpa : ∀ e ∈ p, e.age < a + 1 := fun e he => Nat.lt_succ_iff.mpr (ha e (by simp [he]))
  have hmap := map_older_eq_bump hpa
  refine ⟨p, h, evicted, ?_, ⟨?_, ?_, ?_, ?_, ?_⟩, ?_⟩
  · simp only [makeRoomOldest, hloop, ok_bind, hresize]
  · intro e he
    have := hA e (by simp [he])
    omega
  · rw [hmap, List.append_nil]
    exact Sorted.map_bump (List.Pairwise.sublist hsub hs) hpa
  · rw [hmap, List.append_nil]
    exact (hd.sublist hsub).map_bump _
  · intro e he
    rw [hmap, List.append_nil] at he
    obtain ⟨f, hf, rfl⟩ := List.mem_map.mp he
    exact ⟨f, by simp [hf], htag f (by simp [hf]) (hp f hf).ne, rfl⟩
  · intro f hf _ hfA
    rw [hmap, List.append_nil]
    rcases List.mem_append.mp hf with hf' | hf'
    · exact List.mem_map_of_mem hf'
    · have hfa := ha f hf
      have hfq := hq f hf'
      have := hlt f hf
      simp only [bump, if_pos (Nat.lt_succ_iff.mpr hfa)] at hfA
      omega
  · intro v hv
    obtain ⟨hn, q₁, f, q₂, rfl, htag, hpos⟩ := (hevicted v hv).resolve_left List.not_mem_nil
    exact ⟨hn, p ++ q₁, f, q₂, by simp, htag, hq f (by simp), by simpa using hpos⟩

/-- What `update` makes of a state. -/
structure Updated (T : CacheTraits) (a tag : ℕ) (s s' : LruMinAgeAbstractCache) : Prop where
  wellFormed : WellFormed T s'
  implicit_eq : s'.ageOfImplicitTags = nextAgeOfImplicitTags T a s.ageOfImplicitTags
  mem_iff : ∀ e, e ∈ s'.explicitTags ↔ e.age < s'.ageOfImplicitTags ∧
    (e = ⟨tag, 0⟩ ∨ ∃ f ∈ s.explicitTags, f.tag ≠ tag ∧ e = bump (a + 1) f)

theorem insertFront_eq {s : LruMinAgeAbstractCache} (hw : WellFormed T s) {a tag : ℕ}
    {p r : List AgedTag} (h : AgedTag) (hr : Room a tag s.explicitTags T.associativity p r) :
    ∃ s', insertFront tag p.length (nextAgeOfImplicitTags T a s.ageOfImplicitTags) (p ++ h :: r) =
      .ok s' ∧ Updated T a tag s s' := by
  obtain ⟨h', hshift⟩ := shiftLoop_eq hr.age_lt h r
  have hwrite := write_append [] (p.map older ++ r) h' ⟨tag, 0⟩ (i := 0) rfl
  rw [List.nil_append, List.nil_append] at hwrite
  have hpos : ∀ e ∈ p.map older ++ r, e.tag ≠ tag ∧ 0 < e.age := by
    intro e he
    obtain ⟨f, _, hft, rfl⟩ := hr.mem e he
    refine ⟨hft, ?_⟩
    unfold bump
    dsimp only
    split_ifs <;> omega
  have hs : Sorted (⟨tag, 0⟩ :: (p.map older ++ r)) :=
    sorted_cons.mpr ⟨fun e he => .inl (hpos e he).2, hr.sorted⟩
  have hd : Distinct (⟨tag, 0⟩ :: (p.map older ++ r)) :=
    distinct_cons.mpr ⟨fun e he => (hpos e he).1, hr.distinct⟩
  have hle := nextAgeOfImplicitTags_le (a := a) hw.implicit_le
  have hlt := nextAgeOfImplicitTags_lt (T := T) (a := a) hw.implicit_lt
  refine ⟨⟨(⟨tag, 0⟩ :: (p.map older ++ r)).filter
    fun e => e.age < nextAgeOfImplicitTags T a s.ageOfImplicitTags,
    nextAgeOfImplicitTags T a s.ageOfImplicitTags⟩, ?_, wellFormed_filter hs hd hle hlt, rfl, ?_⟩
  · simp only [insertFront, hshift, hwrite, ok_bind, removeRedundantTags_eq hs]
  · intro e
    rw [List.mem_filter, List.mem_cons, decide_eq_true_iff, and_comm]
    refine and_congr_right fun hage => or_congr_right ⟨hr.mem e, ?_⟩
    rintro ⟨f, hf, hft, rfl⟩
    exact hr.of_mem f hf hft (hage.trans_le hle)

theorem getMinAge_of_mem {s : LruMinAgeAbstractCache} (hd : Distinct s.explicitTags)
    {e : AgedTag} (he : e ∈ s.explicitTags) : getMinAge s e.tag = e.age := by
  simp only [getMinAge, lookup, hd.find?_tag he]

theorem getMinAge_of_absent {s : LruMinAgeAbstractCache} {tag : ℕ}
    (h : ∀ e ∈ s.explicitTags, e.tag ≠ tag) : getMinAge s tag = s.ageOfImplicitTags := by
  simp only [getMinAge, lookup, find?_tag_none h]

/-- No bound is above the common one. -/
theorem WellFormed.getMinAge_le {s : LruMinAgeAbstractCache} (hw : WellFormed T s) (tag : ℕ) :
    getMinAge s tag ≤ s.ageOfImplicitTags := by
  by_cases hfound : ∃ e ∈ s.explicitTags, e.tag = tag
  · obtain ⟨e, he, rfl⟩ := hfound
    rw [getMinAge_of_mem hw.distinct he]
    exact (hw.age_lt e he).le
  · rw [getMinAge_of_absent fun e he h => hfound ⟨e, he, h⟩]

theorem findAccessed_found {s : LruMinAgeAbstractCache} (hw : WellFormed T s)
    {left right : List AgedTag} {e : AgedTag} (hl : s.explicitTags = left ++ e :: right) :
    findAccessed s e.tag = .ok (left.length, true, e.age) := by
  have hne : ∀ f ∈ left, f.tag ≠ e.tag := fun f hf =>
    (distinct_cons.mp ((hl ▸ hw.distinct).perm List.perm_middle)).1 f (by simp [hf])
  have hlen : s.explicitTags.length = left.length + (right.length + 1) := by
    rw [hl, List.length_append, List.length_cons]
  have hfind : findIndex (fun f => decide (f.tag = e.tag)) s.explicitTags
      s.explicitTags.length 0 = .ok left.length := by
    rw [hlen, hl]
    exact findIndex_found (p := fun f : AgedTag => decide (f.tag = e.tag)) (by simpa using hne)
      (by simp) right right.length
  have hread : read s.explicitTags left.length = .ok e := by
    rw [hl]
    exact read_append left right e rfl
  have hpos : left.length ≠ s.explicitTags.length ∧ 0 < s.explicitTags.length := by omega
  simp only [findAccessed, hfind, ok_bind, if_pos hpos, hread]

theorem findAccessed_absent {s : LruMinAgeAbstractCache} {tag : ℕ}
    (hne : ∀ e ∈ s.explicitTags, e.tag ≠ tag) :
    findAccessed s tag = .ok (s.explicitTags.length, false, s.ageOfImplicitTags) := by
  have hfind := findIndex_absent (p := fun f : AgedTag => decide (f.tag = tag))
    (l := s.explicitTags) (by simpa using hne) []
  rw [List.append_nil] at hfind
  simp [findAccessed, hfind]

/-- A reported tag is one that the access leaves without a bound below the ways. -/
theorem Updated.getMinAge_evicted {s s' : LruMinAgeAbstractCache} {a tag : ℕ}
    (hu : Updated T a tag s s') (hd : Distinct s.explicitTags)
    (hlt : ∀ e ∈ s.explicitTags, e.age < T.associativity)
    (hn : nextAgeOfImplicitTags T a s.ageOfImplicitTags = T.associativity) {f : AgedTag}
    (hf : f ∈ s.explicitTags) (hne : f.tag ≠ tag) (hold : f.age = T.associativity - 1)
    (ha : f.age ≤ a) : getMinAge s' f.tag = T.associativity := by
  rw [getMinAge_of_absent, hu.implicit_eq, hn]
  intro e he htag
  obtain ⟨hage, rfl | ⟨g, hg, _, rfl⟩⟩ := (hu.mem_iff e).mp he
  · exact hne htag.symm
  · obtain rfl : g = f := hd.eq_of_tag hg hf htag
    have := hlt g hg
    rw [hu.implicit_eq, hn, bump, if_pos (Nat.lt_succ_iff.mpr ha)] at hage
    dsimp only at hage
    omega

/-- An update succeeds, and ages the elements of at most the accessed age. -/
theorem update_spec {s : LruMinAgeAbstractCache} (hw : WellFormed T s) (tag : ℕ)
    (wantReport : Bool) (assumption : Classification) :
    ∃ s' evicted, update T s tag wantReport assumption =
        .ok (s', reportOf wantReport evicted (decide (s.ageOfImplicitTags ≤ getMinAge s tag ∧
          s.ageOfImplicitTags < T.associativity ∧ s'.ageOfImplicitTags = T.associativity)) false) ∧
      Updated T (getMinAge s tag) tag s s' ∧
      ∀ v ∈ evicted, getMinAge s' v = T.associativity ∧
        s'.ageOfImplicitTags = T.associativity := by
  have hA : ∀ e ∈ s.explicitTags, e.age < 255 := fun e he => by
    have := hw.age_lt e he
    have := hw.implicit_lt
    omega
  have hlt : ∀ e ∈ s.explicitTags, e.age < T.associativity := fun e he =>
    (hw.age_lt e he).trans_le hw.implicit_le
  have finish {a pos : ℕ} {found : Bool} {p r : List AgedTag} {h : AgedTag} {evicted : List ℕ}
      (hfind : findAccessed s tag = .ok (pos, found, a))
      (hroom : makeRoom T found a (nextAgeOfImplicitTags T a s.ageOfImplicitTags) pos
        s.explicitTags = .ok (p.length, p ++ h :: r, evicted))
      (hr : Room a tag s.explicitTags T.associativity p r)
      (hevicted : ∀ v ∈ evicted,
        nextAgeOfImplicitTags T a s.ageOfImplicitTags = T.associativity ∧
        ∃ f ∈ s.explicitTags, f.tag = v ∧ f.tag ≠ tag ∧ f.age = T.associativity - 1 ∧ f.age ≤ a) :
      ∃ s' evicted, update T s tag wantReport assumption =
          .ok (s', reportOf wantReport evicted (decide (s.ageOfImplicitTags ≤ a ∧
            s.ageOfImplicitTags < T.associativity ∧ s'.ageOfImplicitTags = T.associativity))
            false) ∧
        Updated T a tag s s' ∧ ∀ v ∈ evicted, getMinAge s' v = T.associativity ∧
          s'.ageOfImplicitTags = T.associativity := by
    obtain ⟨s', hins, hu⟩ := insertFront_eq hw h hr
    simp only [update, hfind, hroom, hins, ok_bind]
    refine ⟨s', evicted, by rw [hu.implicit_eq], hu, fun v hv => ?_⟩
    obtain ⟨hn, f, hf, rfl, hne, hold, ha⟩ := hevicted v hv
    exact ⟨hu.getMinAge_evicted hw.distinct hlt hn hf hne hold ha, hu.implicit_eq.trans hn⟩
  -- the accessed element is found and not oldest, found and oldest, or absent
  by_cases hfound : ∃ e ∈ s.explicitTags, e.tag = tag
  · obtain ⟨e, he, rfl⟩ := hfound
    obtain ⟨left, right, hl⟩ := List.append_of_mem he
    rw [getMinAge_of_mem hw.distinct he]
    by_cases hold : e.age = T.associativity - 1
    · obtain ⟨p, h, evicted, hroom, hr, hevicted⟩ := makeRoomOldest_eq (T := T) (a := e.age)
        (nextAgeOfImplicitTags T e.age s.ageOfImplicitTags) left.length hw.sorted hw.distinct hA hlt
        (fun f hf => by have := hlt f hf; omega)
        (fun f hf hfa htag => hfa (by rw [hw.distinct.eq_of_tag hf he htag]; exact hold))
      apply finish (findAccessed_found hw hl) (by simpa [makeRoom, hold] using hroom) hr
      intro v hv
      obtain ⟨hn, l₁, f, l₂, hl', htag, hfa, hpos⟩ := hevicted v hv
      have hf : f ∈ s.explicitTags := hl' ▸ List.mem_append_right l₁ List.mem_cons_self
      refine ⟨hn, f, hf, htag, fun hsame => hpos ?_, hfa, (hfa.trans hold.symm).le⟩
      -- the accessed element stands at one position only
      obtain rfl : f = e := hw.distinct.eq_of_tag hf he hsame
      have hnodup : s.explicitTags.Nodup := List.Nodup.of_map _ hw.distinct
      have hsplit := hl.symm.trans hl'
      rw [hl', List.nodup_append'] at hnodup
      obtain ⟨_, hcons, hdisjoint⟩ := hnodup
      have hnot : f ∉ l₁ := fun hmem => hdisjoint hmem List.mem_cons_self
      have heq := (List.append_cons_inj_of_notMem hnot (List.nodup_cons.mp hcons).1).mp hsplit.symm
      rw [heq.1]
    · obtain ⟨p, h, r, hroom, hr⟩ := makeRoomYounger_eq hw.sorted hw.distinct hA hl T.associativity
      exact finish (findAccessed_found hw hl) (by simpa [makeRoom, hold] using hroom) hr
        fun v hv => absurd hv List.not_mem_nil
  · have hne : ∀ e ∈ s.explicitTags, e.tag ≠ tag := fun e he h => hfound ⟨e, he, h⟩
    rw [getMinAge_of_absent hne]
    obtain ⟨p, h, evicted, hroom, hr, hevicted⟩ := makeRoomOldest_eq (T := T)
      (a := s.ageOfImplicitTags) (nextAgeOfImplicitTags T s.ageOfImplicitTags s.ageOfImplicitTags)
      s.explicitTags.length hw.sorted hw.distinct hA hlt (fun f hf => (hw.age_lt f hf).le)
      (fun f hf _ => hne f hf)
    apply finish (findAccessed_absent hne) (by simpa [makeRoom] using hroom) hr
    intro v hv
    obtain ⟨hn, l₁, f, l₂, hl', htag, hfa, _⟩ := hevicted v hv
    have hf : f ∈ s.explicitTags := hl' ▸ List.mem_append_right l₁ List.mem_cons_self
    exact ⟨hn, f, hf, htag, hne f hf, hfa, (hw.age_lt f hf).le⟩

/-- An update moves the bounds up by one at most, and only those up to the
accessed age. -/
theorem Updated.getMinAge_le {s s' : LruMinAgeAbstractCache} {a tag : ℕ} (hw : WellFormed T s)
    (hu : Updated T a tag s s') {t : ℕ} (hne : t ≠ tag) :
    getMinAge s' t ≤ getMinAge s t + if getMinAge s t ≤ a then 1 else 0 := by
  have hbump (f : AgedTag) : (bump (a + 1) f).age = f.age + if f.age ≤ a then 1 else 0 := by
    simp only [bump, Nat.lt_succ_iff]
  by_cases hfound : ∃ e ∈ s'.explicitTags, e.tag = t
  · obtain ⟨e, he, rfl⟩ := hfound
    rw [getMinAge_of_mem hu.wellFormed.distinct he]
    rcases ((hu.mem_iff e).mp he).2 with rfl | ⟨f, hf, _, rfl⟩
    · exact absurd rfl hne
    · rw [bump_tag, getMinAge_of_mem hw.distinct hf, hbump]
  · have hne' : ∀ e ∈ s'.explicitTags, e.tag ≠ t := fun e he h => hfound ⟨e, he, h⟩
    rw [getMinAge_of_absent hne']
    by_cases hold : ∃ f ∈ s.explicitTags, f.tag = t
    · obtain ⟨f, hf, rfl⟩ := hold
      rw [getMinAge_of_mem hw.distinct hf, ← hbump]
      by_contra hlt
      exact hne' (bump (a + 1) f) ((hu.mem_iff _).mpr ⟨by omega, .inr ⟨f, hf, hne, rfl⟩⟩) rfl
    · rw [getMinAge_of_absent fun f hf h => hold ⟨f, hf, h⟩, hu.implicit_eq,
        nextAgeOfImplicitTags]
      have := Nat.mod_le (s.ageOfImplicitTags + 1) (2 ^ 8)
      unfold toWay
      split_ifs <;> omega

theorem Updated.getMinAge_self {s s' : LruMinAgeAbstractCache} {a tag : ℕ}
    (hu : Updated T a tag s s') : getMinAge s' tag = 0 := by
  rcases Nat.eq_zero_or_pos s'.ageOfImplicitTags with h0 | hpos
  · exact Nat.le_zero.mp (h0 ▸ hu.wellFormed.getMinAge_le tag)
  · exact getMinAge_of_mem (e := ⟨tag, 0⟩) hu.wellFormed.distinct
      ((hu.mem_iff _).mpr ⟨hpos, .inl rfl⟩)

end LruMinAgeAbstractCache

end Llvmta
