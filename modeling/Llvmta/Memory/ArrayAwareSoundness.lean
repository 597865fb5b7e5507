import Llvmta.Library.CollectingRun
import Llvmta.Memory.ArrayAwareOperations

/-!
# Soundness of the array-aware must analysis

For each concrete set, every entry has a set of lines that were accessed since
the precise access to its tag, and a number of accesses to each array since then.
The age has room for these lines and for the lines of counted arrays that are
still to come. Of two entries, the younger one was accessed since the precise
access to the older one, or has no more conflicts and array accesses than it; an
update relies on this for the entries that it does not age.
-/

namespace Llvmta

open Checked Lru

namespace LruMaxAgeArrayAwareCache

section Invariant

variable (T : CacheTraits) (P : StaticAddressProvider) (kind : ArrayMustAnaType) (index : ℕ)

/-- The accesses an entry has accounted for or the set has seen, for each array. -/
def counted (m : MustAge) (N : GlobalVariable → ℕ) (r : GlobalVariable) : ℕ :=
  max (m.arrayAccesses.count r) (N r)

/-- The entries describe a concrete set; `D` are the lines and `N` the array
accesses since the precise access to a tag. -/
structure Follows (l : List (ℕ × MustAge)) (c : CacheSet ℕ T.associativity) (D : ℕ → Finset ℕ)
    (N : ℕ → GlobalVariable → ℕ) : Prop where
  behind : ∀ v m, (v, m) ∈ l → c.Behind v (D v)
  notMem : ∀ v m, (v, m) ∈ l → v ∉ D v
  slack : ∀ v m, (v, m) ∈ l →
    Slack (arrayBlocks T P index) (getPerSetSize T P) (counted m (N v)) v (D v) m.age
  seen : kind = .conflictSetIntersect → ∀ v m, (v, m) ∈ l → ∀ r, m.arrayAccesses.count r ≤ N v r
  ordered : ∀ v m t n, (v, m) ∈ l → (t, n) ∈ l → v ≠ t →
    t ∈ D v ∨ insert v (D v) ⊆ D t ∧ ∀ r, N v r ≤ N t r

/-- A well-formed state that describes all sets of `K`. -/
def Describes (s : LruMaxAgeArrayAwareCache) (K : Set (CacheSet ℕ T.associativity)) : Prop :=
  WellFormed T s.ages ∧ ∀ c ∈ K, ∃ D N, Follows T P kind index s.ages c D N

end Invariant

variable {T : CacheTraits} {P : StaticAddressProvider} {kind : ArrayMustAnaType} {index : ℕ}
  {l l' : List (ℕ × MustAge)} {c : CacheSet ℕ T.associativity} {D : ℕ → Finset ℕ}
  {N : ℕ → GlobalVariable → ℕ}

theorem Follows.within (h : Follows T P kind index l c D N) {v : ℕ} {m : MustAge}
    (hm : (v, m) ∈ l) : c.Within v m.age :=
  (h.behind v m hm).within (h.slack v m hm).card_le

/-- Positions within the ages suffice as long as no array is counted. -/
theorem follows_of_within (hblocks : ∀ r, (arrayBlocks T P index r).card ≤ getPerSetSize T P r)
    (hwithin : ∀ v m, (v, m) ∈ l → c.Within v m.age)
    (harrays : ∀ v m, (v, m) ∈ l → m.arrayAccesses = []) :
    Follows T P kind index l c c.younger fun _ _ => 0 where
  behind v m hm := ⟨(hwithin v m hm).1, subset_rfl⟩
  notMem v m hm := c.notMem_younger_self v
  slack v m hm := by
    have hzero : counted m (fun _ => 0) = fun _ => 0 := by
      funext r
      simp [counted, harrays v m hm]
    rw [hzero]
    apply slack_zero hblocks
    rw [CacheSet.card_younger]
    exact (hwithin v m hm).2
  seen _ v m hm r := by simp [harrays v m hm]
  ordered v m t n hm hn hne := by
    have hor := CacheSet.mem_younger_or (hwithin v m hm).1 (hwithin t n hn).1 hne.symm
    exact hor.imp_right fun hsub => ⟨hsub, fun _ => le_rfl⟩

/-! ## Accesses of unknown lines -/

/-- The lines accessed since the precise access to each tag, after one more access
to a line. -/
def touch (u : ℕ) (D : ℕ → Finset ℕ) (v : ℕ) : Finset ℕ := if v = u then D v else insert u (D v)

/-- The array accesses since the precise access to each tag, after one more. -/
def countAccess (array : Option GlobalVariable) (N : ℕ → GlobalVariable → ℕ) (v : ℕ)
    (r : GlobalVariable) : ℕ := N v r + if array = some r then 1 else 0

theorem subset_touch (u v : ℕ) : D v ⊆ touch u D v := by
  unfold touch
  split_ifs
  · exact subset_rfl
  · exact Finset.subset_insert u (D v)

theorem ordered_touch {u v t : ℕ}
    (h : t ∈ D v ∨ insert v (D v) ⊆ D t ∧ ∀ r, N v r ≤ N t r) (array : Option GlobalVariable) :
    t ∈ touch u D v ∨ insert v (touch u D v) ⊆ touch u D t ∧
      ∀ r, countAccess array N v r ≤ countAccess array N t r := by
  rcases h with hmem | ⟨hsub, hle⟩
  · exact .inl (subset_touch u v hmem)
  · by_cases htu : t = u
    · by_cases hvu : v = u
      · right
        subst t
        subst v
        exact ⟨by simpa [touch] using hsub, fun r => le_rfl⟩
      · left
        rw [touch, if_neg hvu, htu]
        exact Finset.mem_insert_self u (D v)
    · right
      refine ⟨?_, fun r => Nat.add_le_add_right (hle r) _⟩
      intro x hx
      rw [touch, if_neg htu, Finset.mem_insert]
      rcases Finset.mem_insert.mp hx with rfl | hx
      · exact .inr (hsub (Finset.mem_insert_self x _))
      · unfold touch at hx
        split_ifs at hx
        · exact .inr (hsub (Finset.mem_insert_of_mem hx))
        · exact (Finset.mem_insert.mp hx).imp_right fun hx => hsub (Finset.mem_insert_of_mem hx)

theorem count_le_countAccess {m m' : MustAge} {array : Option GlobalVariable} {v : ℕ}
    (haged : AgedPotentially T P m m' array) (h : ∀ r, m.arrayAccesses.count r ≤ N v r)
    (r : GlobalVariable) : m'.arrayAccesses.count r ≤ countAccess array N v r := by
  have hr := h r
  unfold countAccess
  cases array with
  | none =>
    rw [haged.2 r]
    exact hr.trans (Nat.le_add_right _ _)
  | some arr =>
    rcases haged with ⟨_, hcount⟩ | ⟨rfl, _⟩
    · rw [hcount r]
      by_cases hra : r = arr
      · simp [hra, h arr]
      · simp [hra, Ne.symm hra, hr]
    · exact hr.trans (Nat.le_add_right _ _)

/-- An aged entry has room for a line the access may have touched. -/
theorem slack_touched {m m' : MustAge} {array : Option GlobalVariable} {v u : ℕ}
    (haged : AgedPotentially T P m m' array)
    (h : Slack (arrayBlocks T P index) (getPerSetSize T P) (counted m (N v)) v (D v) m.age)
    (hu : ∀ arr, array = some arr → u ∈ arrayBlocks T P index arr) (huv : u ≠ v) :
    Slack (arrayBlocks T P index) (getPerSetSize T P) (counted m' (countAccess array N v)) v
      (insert u (D v)) m'.age := by
  cases array with
  | none =>
    rw [haged.1]
    apply (h.succ u).mono le_rfl
    intro r
    simp [counted, countAccess, haged.2 r]
  | some arr =>
    rcases haged with ⟨hage, hcount⟩ | ⟨rfl, hlimit⟩
    · rw [hage]
      apply h.count (hu arr rfl) huv
      intro r
      unfold counted countAccess
      rw [hcount r]
      by_cases hra : r = arr
      · simp only [hra, if_true]
        omega
      · simp [hra, Ne.symm hra]
    · have hfull : getPerSetSize T P arr ≤ counted m' (N v) arr := hlimit.trans (le_max_left _ _)
      apply (h.exhausted (hu arr rfl) huv hfull).mono le_rfl
      intro r
      by_cases hra : r = arr
      · subst r
        omega
      · simp [counted, countAccess, Ne.symm hra]

/-- An aged entry stays valid when the access touched nothing. -/
theorem slack_untouched {m m' : MustAge} {array : Option GlobalVariable} {v : ℕ}
    (haged : AgedPotentially T P m m' array)
    (h : Slack (arrayBlocks T P index) (getPerSetSize T P) (counted m (N v)) v (D v) m.age) :
    Slack (arrayBlocks T P index) (getPerSetSize T P) (counted m' (countAccess array N v)) v
      (D v) m'.age := by
  cases array with
  | none =>
    apply h.mono (by rw [haged.1]; exact Nat.le_succ _)
    intro r
    simp [counted, countAccess, haged.2 r]
  | some arr =>
    rcases haged with ⟨hage, hcount⟩ | ⟨rfl, hlimit⟩
    · apply h.weaken [arr]
      · rw [hage, List.length_singleton]
      · intro r
        unfold counted countAccess
        rw [hcount r, List.count_singleton]
        by_cases hra : r = arr
        · simp only [hra, if_true, beq_self_eq_true]
          omega
        · simp [hra, Ne.symm hra]
    · apply h.mono le_rfl
      intro r
      by_cases hra : r = arr
      · subst r
        have hfull : getPerSetSize T P arr ≤ counted m' (N v) arr := hlimit.trans (le_max_left _ _)
        omega
      · simp [counted, countAccess, Ne.symm hra]

/-- Ageing all entries describes the sets after an access that `array` covers, if
any line is accessed at all. -/
theorem Follows.potentialUpdate (h : Follows T P kind index l c D N)
    {array : Option GlobalVariable}
    (hl : ∀ v m', (v, m') ∈ l' → m'.age < T.associativity ∧
      ∃ m, (v, m) ∈ l ∧ AgedPotentially T P m m' array) :
    Follows T P kind index l' c D (countAccess array N) ∧
      ∀ u, (∀ arr, array = some arr → u ∈ arrayBlocks T P index arr) →
        Follows T P kind index l' (c.access u) (touch u D) (countAccess array N) := by
  have hseen : kind = .conflictSetIntersect → ∀ v m', (v, m') ∈ l' → ∀ r,
      m'.arrayAccesses.count r ≤ countAccess array N v r := by
    intro hkind v m' hm'
    obtain ⟨_, m, hm, haged⟩ := hl v m' hm'
    exact count_le_countAccess haged (h.seen hkind v m hm)
  constructor
  · refine ⟨?_, ?_, ?_, hseen, ?_⟩
    · intro v m' hm'
      obtain ⟨_, m, hm, _⟩ := hl v m' hm'
      exact h.behind v m hm
    · intro v m' hm'
      obtain ⟨_, m, hm, _⟩ := hl v m' hm'
      exact h.notMem v m hm
    · intro v m' hm'
      obtain ⟨_, m, hm, haged⟩ := hl v m' hm'
      exact slack_untouched haged (h.slack v m hm)
    · intro v m' t n' hm' hn' hne
      obtain ⟨_, m, hm, _⟩ := hl v m' hm'
      obtain ⟨_, n, hn, _⟩ := hl t n' hn'
      apply (h.ordered v m t n hm hn hne).imp_right
      rintro ⟨hsub, hle⟩
      exact ⟨hsub, fun r => Nat.add_le_add_right (hle r) _⟩
  · intro u hu
    have hslack : ∀ v m', (v, m') ∈ l' → Slack (arrayBlocks T P index) (getPerSetSize T P)
        (counted m' (countAccess array N v)) v (touch u D v) m'.age := by
      intro v m' hm'
      obtain ⟨_, m, hm, haged⟩ := hl v m' hm'
      unfold touch
      split_ifs with hvu
      · exact slack_untouched haged (h.slack v m hm)
      · exact slack_touched haged (h.slack v m hm) hu (Ne.symm hvu)
    refine ⟨?_, ?_, hslack, hseen, ?_⟩
    · intro v m' hm'
      obtain ⟨hlt, m, hm, _⟩ := hl v m' hm'
      have hcard := (hslack v m' hm').card_le
      by_cases hvu : v = u
      · subst v
        exact c.behind_access_self u (Nat.zero_lt_of_lt hlt) _
      · rw [touch, if_neg hvu] at hcard ⊢
        exact (h.behind v m hm).access hvu (hcard.trans_lt hlt)
    · intro v m' hm'
      obtain ⟨_, m, hm, _⟩ := hl v m' hm'
      have hnot := h.notMem v m hm
      unfold touch
      split_ifs with hvu
      · exact hnot
      · rw [Finset.mem_insert, not_or]
        exact ⟨hvu, hnot⟩
    · intro v m' t n' hm' hn' hne
      obtain ⟨_, m, hm, _⟩ := hl v m' hm'
      obtain ⟨_, n, hn, _⟩ := hl t n' hn'
      exact ordered_touch (h.ordered v m t n hm hn hne) array

/-! ## Precise accesses -/

/-- The lines accessed since the precise access to each tag, after one more. -/
def renew (x : ℕ) (D : ℕ → Finset ℕ) (v : ℕ) : Finset ℕ := if v = x then ∅ else insert x (D v)

/-- The array accesses since the precise access to each tag, after one to `x`. -/
def forget (x : ℕ) (N : ℕ → GlobalVariable → ℕ) (v : ℕ) (r : GlobalVariable) : ℕ :=
  if v = x then 0 else N v r

/-- A precise access describes the next set, provided that the entries it does not
age have room for it. -/
theorem Follows.update (h : Follows T P kind index l c D N) (hpos : 0 < T.associativity)
    (hblocks : ∀ r, (arrayBlocks T P index r).card ≤ getPerSetSize T P r) {x a : ℕ}
    (hl : ∀ v m', (v, m') ∈ l' → v = x ∧ m' = .make ∨
      v ≠ x ∧ m'.age < T.associativity ∧ ∃ m, (v, m) ∈ l ∧ AgedYounger a m m')
    (hold : ∀ v m, (v, m) ∈ l → v ≠ x → a ≤ m.age →
      Slack (arrayBlocks T P index) (getPerSetSize T P) (counted m (N v)) v (insert x (D v)) m.age) :
    Follows T P kind index l' (c.access x) (renew x D) (forget x N) := by
  have hslack : ∀ v m', (v, m') ∈ l' → Slack (arrayBlocks T P index) (getPerSetSize T P)
      (counted m' (forget x N v)) v (renew x D v) m'.age := by
    intro v m' hm'
    rcases hl v m' hm' with ⟨rfl, rfl⟩ | ⟨hne, _, m, hm, harrays, hage⟩
    · have hzero : counted .make (forget v N v) = fun _ => 0 := by
        funext r
        simp [counted, forget, MustAge.make]
      rw [hzero]
      apply slack_zero hblocks
      simp [renew]
    · have hsame : counted m' (forget x N v) = counted m (N v) := by
        funext r
        simp [counted, forget, hne, harrays]
      rw [hsame, renew, if_neg hne]
      rcases hage with ⟨hage, hle⟩ | ⟨hage, _⟩
      · rw [hage]
        exact hold v m hm hne hle
      · rw [hage]
        exact (h.slack v m hm).succ x
  refine ⟨?_, ?_, hslack, ?_, ?_⟩
  · intro v m' hm'
    have hcard := (hslack v m' hm').card_le
    rcases hl v m' hm' with ⟨rfl, _⟩ | ⟨hne, hlt, m, hm, _⟩
    · exact c.behind_access_self v hpos _
    · rw [renew, if_neg hne] at hcard ⊢
      exact (h.behind v m hm).access hne (hcard.trans_lt hlt)
  · intro v m' hm'
    rcases hl v m' hm' with ⟨rfl, _⟩ | ⟨hne, _, m, hm, _⟩
    · simp [renew]
    · rw [renew, if_neg hne, Finset.mem_insert, not_or]
      exact ⟨hne, h.notMem v m hm⟩
  · intro hkind v m' hm' r
    rcases hl v m' hm' with ⟨_, rfl⟩ | ⟨hne, _, m, hm, harrays, _⟩
    · exact Nat.zero_le _
    · rw [harrays, forget, if_neg hne]
      exact h.seen hkind v m hm r
  · intro v m' t n' hm' hn' hne
    rcases hl t n' hn' with ⟨rfl, _⟩ | ⟨htx, _, n, hn, _⟩
    · left
      rw [renew, if_neg hne]
      exact Finset.mem_insert_self t (D v)
    · rcases hl v m' hm' with ⟨rfl, _⟩ | ⟨hvx, _, m, hm, _⟩
      · right
        refine ⟨?_, fun r => ?_⟩
        · rw [renew, if_pos rfl, renew, if_neg htx]
          exact Finset.insert_subset_insert v (Finset.empty_subset _)
        · rw [forget, if_pos rfl]
          exact Nat.zero_le _
      · simp only [renew, forget, if_neg hvx, if_neg htx]
        apply (h.ordered v m t n hm hn hne).imp
        · exact fun hmem => Finset.mem_insert_of_mem hmem
        · rintro ⟨hsub, hle⟩
          refine ⟨?_, hle⟩
          rw [Finset.insert_comm]
          exact Finset.insert_subset_insert x hsub

/-- An entry that is not aged is covered by the accessed entry, if its age leaves
room for the arrays that only it has counted. -/
theorem Follows.covered (h : Follows T P kind index l c D N) {x v : ℕ} {mx m : MustAge}
    (hx : (x, mx) ∈ l) (hv : (v, m) ∈ l) (hne : v ≠ x) (hle : mx.age ≤ m.age)
    (hcond : kind = .conflictSetUnion →
      mx.age + (m.arrayAccesses.diff mx.arrayAccesses).length ≤ m.age) :
    Slack (arrayBlocks T P index) (getPerSetSize T P) (counted m (N v)) v (insert x (D v)) m.age := by
  rcases h.ordered v m x mx hv hx hne with hmem | ⟨hsub, hN⟩
  · rw [Finset.insert_eq_of_mem hmem]
    exact h.slack v m hv
  · by_cases hmem : x ∈ D v
    · rw [Finset.insert_eq_of_mem hmem]
      exact h.slack v m hv
    · have hswap := (h.slack x mx hx).swap hmem (h.notMem v m hv) hsub
      cases kind with
      | conflictSetIntersect =>
        apply hswap.mono hle
        intro r
        have hseen := h.seen rfl v m hv r
        have := hN r
        unfold counted
        omega
      | conflictSetUnion =>
        apply hswap.weaken _ (hcond rfl)
        intro r
        have := hN r
        unfold counted
        rw [List.count_diff]
        omega

/-! ## Runs -/

section Run

variable (T P kind index)

/-- Precise accesses are routed to the set of their line. -/
inductive ArrayAwareOp where
  | update (addr : AbstractAddress)
      (line : getCachelineAddress T addr.interval.lower = getCachelineAddress T addr.interval.upper)
      (inSet : getindex T addr.interval.lower = index) (wantReport : Bool)
      (assumption : Classification)
  | potentialUpdate (addr : AbstractAddress) (wantReport : Bool)

/-- The analysis of the set `index`. An update that assumes a hit continues only
the sets that hold the tag. -/
def analysis : Collecting.Analysis Bool (ArrayAwareOp T index) LruMaxAgeArrayAwareCache
    (CacheSet ℕ T.associativity) Fault where
  start assumeAnEmptyCache := new assumeAnEmptyCache
  step
    | .update addr _ _ wantReport assumption, s =>
      Prod.fst <$> s.update T addr .load wantReport assumption
    | .potentialUpdate addr wantReport, s => Prod.fst <$> s.potentialUpdate T P addr .load wantReport
  join x y := x.join T kind y
  described assumeAnEmptyCache := {c | assumeAnEmptyCache = true → c = .empty}
  concrete
    | .update addr _ _ _ assumption, c, c' =>
      (assumption = .clHit → getTag T addr.interval.lower ∈ c) ∧
        c' = c.access (getTag T addr.interval.lower)
    | .potentialUpdate addr _, c, c' => c' = c ∨
      ∃ tag, MayTouch T P index addr tag ∧ c' = c.access tag

/-- A hit assumed for a tag without an entry leaves no entry of age `ASSOCIATIVITY - 1`
without ageing, unless no array is counted in any entry. -/
def HitCovered (op : ArrayAwareOp T index) (s : LruMaxAgeArrayAwareCache) : Prop :=
  match op with
  | .update addr _ _ _ assumption =>
    assumption = .clHit → s.find? (getTag T addr.interval.lower) = none →
      (∀ e ∈ s.ages, e.2.age < T.associativity - 1) ∨ ∀ e ∈ s.ages, e.2.arrayAccesses = []
  | .potentialUpdate _ _ => True

/-- An access to an entry finds no other entry that is as old, but not by as much as
the number of arrays that only the other entry has counted. -/
def CountsCovered (op : ArrayAwareOp T index) (s : LruMaxAgeArrayAwareCache) : Prop :=
  match op with
  | .update addr _ _ _ _ => ∀ m, s.find? (getTag T addr.interval.lower) = some m →
      ∀ e ∈ s.ages, e.1 ≠ getTag T addr.interval.lower → m.age ≤ e.2.age →
        m.age + (e.2.arrayAccesses.diff m.arrayAccesses).length ≤ e.2.age
  | .potentialUpdate _ _ => True

/-- What each step of a run has to meet, for either kind of conflict sets. -/
def Covered (op : ArrayAwareOp T index) (s : LruMaxAgeArrayAwareCache) : Prop :=
  HitCovered T index op s ∧ (kind = .conflictSetUnion → CountsCovered T index op s)

end Run

variable {s : LruMaxAgeArrayAwareCache} {K : Set (CacheSet ℕ T.associativity)}

theorem describes_new (assumeAnEmptyCache : Bool)
    (K : Set (CacheSet ℕ T.associativity)) :
    Describes T P kind index (new assumeAnEmptyCache) K := by
  have hnone (v : ℕ) (m : MustAge) (h : (v, m) ∈ (new assumeAnEmptyCache).ages) : False :=
    List.not_mem_nil h
  refine ⟨⟨List.Pairwise.nil, fun e he => absurd he List.not_mem_nil⟩, fun c _ => ?_⟩
  refine ⟨fun _ => ∅, fun _ _ => 0, ⟨?_, ?_, ?_, ?_, ?_⟩⟩
  · exact fun v m hm => (hnone v m hm).elim
  · exact fun v m hm => (hnone v m hm).elim
  · exact fun v m hm => (hnone v m hm).elim
  · exact fun _ v m hm => (hnone v m hm).elim
  · exact fun v m t n hm => (hnone v m hm).elim

theorem describes_potentialUpdate (hA : T.associativity < 256)
    (h : Describes T P kind index s K) (addr : AbstractAddress) (wantReport : Bool) :
    ∃ s', (analysis T P kind index).step (.potentialUpdate addr wantReport) s = .ok s' ∧
      Describes T P kind index s'
        ((analysis T P kind index).image (.potentialUpdate addr wantReport) K) := by
  obtain ⟨hw, hK⟩ := h
  obtain ⟨kept, evicted, hages, hsub, hmem⟩ := ageEntries_spec
    (f := agePotentially T P addr.getArray) (R := fun m m' => m'.age < T.associativity ∧
      AgedPotentially T P m m' addr.getArray)
    fun e he => agePotentially_spec hA addr.getArray (hw.age_lt e he)
  have hkept : ∀ v m', (v, m') ∈ kept → m'.age < T.associativity ∧
      ∃ m, (v, m) ∈ s.ages ∧ AgedPotentially T P m m' addr.getArray := by
    intro v m' hm'
    obtain ⟨m, hm, hlt, haged⟩ := hmem v m' hm'
    exact ⟨hlt, m, hm, haged⟩
  refine ⟨⟨kept⟩, ?_, ⟨hw.sorted.sublist hsub, fun e he => (hkept e.1 e.2 he).1⟩, ?_⟩
  · simp [analysis, LruMaxAgeArrayAwareCache.potentialUpdate, hages, Functor.map, Except.map]
  · rintro c' ⟨c, hc, hc'⟩
    obtain ⟨D, N, hfollows⟩ := hK c hc
    obtain ⟨hstay, htouch⟩ := hfollows.potentialUpdate hkept
    rcases hc' with rfl | ⟨tag, htag, rfl⟩
    · exact ⟨_, _, hstay⟩
    · refine ⟨_, _, htouch tag fun arr harr => ?_⟩
      simpa only [MayTouch, harr] using htag

/-- The result of a precise access: the accessed tag is renewed, others are aged. -/
theorem update_spec (hA : T.associativity < 256) (hw : WellFormed T s.ages)
    (addr : AbstractAddress)
    (hline : getCachelineAddress T addr.interval.lower = getCachelineAddress T addr.interval.upper)
    (wantReport : Bool) {assumption : Classification} {a : ℕ}
    (ha : s.accessedAge T (getTag T addr.interval.lower) assumption = .ok a)
    (hpos : 0 < T.associativity) :
    ∃ s', Prod.fst <$> s.update T addr .load wantReport assumption = .ok s' ∧
      WellFormed T s'.ages ∧ ∀ v m', (v, m') ∈ s'.ages →
        v = getTag T addr.interval.lower ∧ m' = .make ∨
        v ≠ getTag T addr.interval.lower ∧ m'.age < T.associativity ∧
          ∃ m, (v, m) ∈ s.ages ∧ AgedYounger a m m' := by
  obtain ⟨kept, evicted, hages, hsub, hmem⟩ := ageEntries_spec
    (f := ageYounger T a) (R := fun m m' => m'.age < T.associativity ∧ AgedYounger a m m')
    fun e he => ageYounger_spec hA a (hw.age_lt e he)
  obtain ⟨hsorted, hassign⟩ := assign_spec (getTag T addr.interval.lower) .make
    (hw.sorted.sublist hsub)
  have hcases : ∀ v m', (v, m') ∈ assign (getTag T addr.interval.lower) .make kept →
      v = getTag T addr.interval.lower ∧ m' = .make ∨
      v ≠ getTag T addr.interval.lower ∧ m'.age < T.associativity ∧
        ∃ m, (v, m) ∈ s.ages ∧ AgedYounger a m m' := by
    intro v m' hm'
    rcases (hassign (v, m')).mp hm' with heq | ⟨hne, hkept⟩
    · cases heq
      exact .inl ⟨rfl, rfl⟩
    · obtain ⟨m, hm, hlt, haged⟩ := hmem v m' hkept
      exact .inr ⟨hne, hlt, m, hm, haged⟩
  refine ⟨⟨assign (getTag T addr.interval.lower) .make kept⟩, ?_, ⟨hsorted, ?_⟩, hcases⟩
  · simp [LruMaxAgeArrayAwareCache.update, getTagOf, hline, ha, hages, Functor.map, Except.map]
  · rintro ⟨v, m'⟩ he
    rcases hcases v m' he with ⟨_, rfl⟩ | ⟨_, hlt, _⟩
    · exact hpos
    · exact hlt

theorem accessedAge_found (hA : T.associativity < 256) (hw : WellFormed T s.ages) {tag : ℕ}
    {m : MustAge} (hfind : s.find? tag = some m) (assumption : Classification) :
    s.accessedAge T tag assumption = .ok m.age := by
  have hlt := hw.age_lt _ ((find?_eq_some hw).mp hfind)
  simp only [accessedAge, hfind]
  exact MustAge.getAge_ok hA hlt

theorem accessedAge_absent (hA : T.associativity < 256) (hpos : 0 < T.associativity) {tag : ℕ}
    (hfind : s.find? tag = none) (assumption : Classification) :
    s.accessedAge T tag assumption =
      .ok (if assumption = .clHit then T.associativity - 1 else T.associativity) := by
  simp only [accessedAge, hfind]
  split_ifs with hhit
  · rw [MustAge.toUnsigned_pred hpos hA, toWay_of_lt (by omega)]
  · rw [toWay_of_lt hA]

/-- A hit on a tag without an entry, in a state that counts no array: each entry is
aged or stays in the last way. -/
theorem within_hit {x : ℕ} (hpos : 0 < T.associativity)
    (hl : ∀ v m', (v, m') ∈ l' → v = x ∧ m' = .make ∨
      v ≠ x ∧ m'.age < T.associativity ∧
        ∃ m, (v, m) ∈ l ∧ AgedYounger (T.associativity - 1) m m')
    (hwithin : ∀ v m, (v, m) ∈ l → c.Within v m.age) (hx : x ∈ c) :
    ∀ v m', (v, m') ∈ l' → (c.access x).Within v m'.age := by
  intro v m' hm'
  rcases hl v m' hm' with ⟨rfl, _⟩ | ⟨_, hlt, m, hm, _, hage⟩
  · exact CacheSet.within_access_self c v hpos _
  · rcases hage with ⟨hage, hle⟩ | ⟨hage, _⟩
    · have hxwithin : c.Within x (T.associativity - 1) :=
        ⟨hx, Nat.le_sub_one_of_lt (CacheSet.age_lt_ways hx)⟩
      rw [hage]
      exact (hwithin v m hm).access_of_le hxwithin hle
    · rw [hage] at hlt ⊢
      exact (hwithin v m hm).access_succ hlt

theorem describes_update (hA : T.associativity < 256) (hpos : 0 < T.associativity)
    (hblocks : ∀ r, (arrayBlocks T P index r).card ≤ getPerSetSize T P r)
    (h : Describes T P kind index s K) (addr : AbstractAddress)
    (hline : getCachelineAddress T addr.interval.lower = getCachelineAddress T addr.interval.upper)
    (hin : getindex T addr.interval.lower = index) (wantReport : Bool) (assumption : Classification)
    (hop : Covered T kind index (.update addr hline hin wantReport assumption) s) :
    ∃ s', (analysis T P kind index).step (.update addr hline hin wantReport assumption) s = .ok s' ∧
      Describes T P kind index s'
        ((analysis T P kind index).image (.update addr hline hin wantReport assumption) K) := by
  obtain ⟨hw, hK⟩ := h
  cases hfind : s.find? (getTag T addr.interval.lower) with
  | some mx =>
    obtain ⟨s', hs', hw', hl⟩ := update_spec hA hw addr hline wantReport
      (accessedAge_found hA hw hfind assumption) hpos
    refine ⟨s', hs', hw', ?_⟩
    rintro _ ⟨c, hc, _, rfl⟩
    obtain ⟨D, N, hfollows⟩ := hK c hc
    refine ⟨_, _, hfollows.update hpos hblocks hl fun v m hm hne hle => ?_⟩
    apply hfollows.covered ((find?_eq_some hw).mp hfind) hm hne hle
    intro hkind
    exact hop.2 hkind mx hfind (v, m) hm hne hle
  | none =>
    obtain ⟨s', hs', hw', hl⟩ := update_spec hA hw addr hline wantReport
      (accessedAge_absent hA hpos hfind assumption) hpos
    refine ⟨s', hs', hw', ?_⟩
    rintro _ ⟨c, hc, hhit, rfl⟩
    obtain ⟨D, N, hfollows⟩ := hK c hc
    have haged (hnone : ∀ v m, (v, m) ∈ s.ages →
        m.age < if assumption = .clHit then T.associativity - 1 else T.associativity) :
        ∃ D' N', Follows T P kind index s'.ages (c.access (getTag T addr.interval.lower)) D' N' := by
      refine ⟨_, _, hfollows.update hpos hblocks hl fun v m hm _ hle => ?_⟩
      exact absurd (hnone v m hm) (Nat.not_lt.mpr hle)
    by_cases hassume : assumption = .clHit
    · simp only [if_pos hassume] at hl haged
      rcases hop.1 hassume hfind with hyoung | harrays
      · exact haged fun v m hm => hyoung (v, m) hm
      · refine ⟨_, _, follows_of_within hblocks ?_ ?_⟩
        · exact within_hit hpos hl (fun v m hm => hfollows.within hm) (hhit hassume)
        · intro v m' hm'
          rcases hl v m' hm' with ⟨_, rfl⟩ | ⟨_, _, m, hm, hsame, _⟩
          · rfl
          · rw [hsame]
            exact harrays (v, m) hm
    · simp only [if_neg hassume] at haged
      exact haged fun v m hm => hw.age_lt (v, m) hm

theorem describes_join (hA : T.associativity < 256) (x y : LruMaxAgeArrayAwareCache)
    (K L : Set (CacheSet ℕ T.associativity)) (hx : Describes T P kind index x K)
    (hy : Describes T P kind index y L) :
    ∃ u, (analysis T P kind index).join x y = .ok u ∧ Describes T P kind index u (K ∪ L) := by
  obtain ⟨l, hl, hsub, hmem⟩ := joinEntries_spec hA kind x.ages y.ages hx.1.age_lt hy.1.age_lt
  refine ⟨⟨l⟩, ?_, ⟨hx.1.sorted.sublist hsub, fun e he => (hmem e.1 e.2 he).1⟩, ?_⟩
  · change x.join T kind y = _
    rw [LruMaxAgeArrayAwareCache.join, hl, ok_bind]
  · have hside {z : LruMaxAgeArrayAwareCache} {c : CacheSet ℕ T.associativity}
        {D : ℕ → Finset ℕ} {N : ℕ → GlobalVariable → ℕ}
        (hfollows : Follows T P kind index z.ages c D N)
        (hfrom : ∀ v u, (v, u) ∈ l → ∃ m, (v, m) ∈ z.ages ∧ u.Extends m ∧
          (kind = .conflictSetIntersect → ∀ r,
            u.arrayAccesses.count r ≤ m.arrayAccesses.count r)) :
        Follows T P kind index l c D N := by
      refine ⟨?_, ?_, ?_, ?_, ?_⟩
      · intro v u hu
        obtain ⟨m, hm, _⟩ := hfrom v u hu
        exact hfollows.behind v m hm
      · intro v u hu
        obtain ⟨m, hm, _⟩ := hfrom v u hu
        exact hfollows.notMem v m hm
      · intro v u hu
        obtain ⟨m, hm, ⟨extra, hage, hcount⟩, _⟩ := hfrom v u hu
        apply (hfollows.slack v m hm).weaken extra hage
        intro r
        have := hcount r
        unfold counted
        omega
      · intro hkind v u hu r
        obtain ⟨m, hm, _, hle⟩ := hfrom v u hu
        exact (hle hkind r).trans (hfollows.seen hkind v m hm r)
      · intro v u t w hu hw hne
        obtain ⟨m, hm, _⟩ := hfrom v u hu
        obtain ⟨n, hn, _⟩ := hfrom t w hw
        exact hfollows.ordered v m t n hm hn hne
    rintro c (hc | hc)
    · obtain ⟨D, N, hfollows⟩ := hx.2 c hc
      refine ⟨D, N, hside hfollows fun v u hu => ?_⟩
      obtain ⟨_, m, n, hm, _, hleft, _, hcount⟩ := hmem v u hu
      exact ⟨m, hm, hleft, fun hkind r => (hcount hkind r).1⟩
    · obtain ⟨D, N, hfollows⟩ := hy.2 c hc
      refine ⟨D, N, hside hfollows fun v u hu => ?_⟩
      obtain ⟨_, m, n, _, hn, _, hright, hcount⟩ := hmem v u hu
      exact ⟨n, hn, hright, fun hkind r => (hcount hkind r).2⟩

/-- In a run whose steps are covered, every entry is cached, at a position of at
most its age, in each set the run describes. -/
theorem coveredRun_within (hA : T.associativity < 256) (hpos : 0 < T.associativity)
    (hblocks : ∀ r, (arrayBlocks T P index r).card ≤ getPerSetSize T P r)
    (r : Collecting.Run Bool (ArrayAwareOp T index))
    (hr : (analysis T P kind index).Every (fun op s _ => Covered T kind index op s) r) :
    ∃ s, (analysis T P kind index).eval r = .ok s ∧ WellFormed T s.ages ∧
      ∀ c ∈ (analysis T P kind index).collect r, ∀ tag m, (tag, m) ∈ s.ages →
        c.Within tag m.age := by
  obtain ⟨s, hs, hdesc⟩ := Collecting.Analysis.Run.sound (Describes T P kind index)
    (fun i => describes_new i _)
    (fun op s K h hop => by
      cases op with
      | update addr hline hin wantReport assumption =>
        exact describes_update hA hpos hblocks h addr hline hin wantReport assumption hop
      | potentialUpdate addr wantReport => exact describes_potentialUpdate hA h addr wantReport)
    (describes_join hA) r hr
  refine ⟨s, hs, hdesc.1, fun c hc tag m hm => ?_⟩
  obtain ⟨D, N, hfollows⟩ := hdesc.2 c hc
  exact hfollows.within hm

end LruMaxAgeArrayAwareCache

end Llvmta
