import Llvmta.Memory.CacheSetInterval
import Llvmta.Memory.MultiScopePersistence

/-!
# The persistent scopes of an array

An array is persistent in a scope if it is so in every cache set to which one of
its bytes maps. `getPersistentScopes` intersects the scopes of the sets in the
interval of `getCacheSetInterval`, from its lower end upwards, so that an interval
that wraps around the last set contributes its first set only.
-/

namespace Llvmta

open Checked Cyclic

/-! ## Arrays in memory -/

/-- The allocation of a global variable. -/
structure ArrayPlacement where
  address : ℕ
  allocSize : ℕ
  address_lt : address < 2 ^ 32
  fits : address + allocSize ≤ 2 ^ 32

namespace ArrayPlacement

variable (arr : ArrayPlacement)

/-- The allocated size, rounded up to a multiple of four. -/
def getArraySize : ℕ :=
  let size := toUnsigned arr.allocSize
  if size % 4 ≠ 0 then toUnsigned (size / 4 * 4 + 4) else size

/-- The bounds of `AddressInterval(base, base + size - 4)`; bounds out of order
give the empty interval `[1, 0]`. -/
def getAsInterval : ℕ × ℕ :=
  let upper := toUnsigned (arr.address + arr.getArraySize + (2 ^ 32 - 4))
  if arr.address ≤ upper then (arr.address, upper) else (1, 0)

/-- The first byte of the last word, counted from the start of the array. -/
def lastWord : ℕ := arr.address + (arr.allocSize - 1) / 4 * 4

def lastByte : ℕ := arr.address + arr.allocSize - 1

variable {arr}

theorem getArraySize_eq (h : 0 < arr.allocSize) :
    arr.getArraySize = toUnsigned ((arr.allocSize - 1) / 4 * 4 + 4) := by
  have hfits := arr.fits
  unfold getArraySize toUnsigned
  by_cases hdvd : arr.allocSize % 2 ^ 32 % 4 = 0
  · simp only [hdvd, ne_eq, not_true, if_false]
    omega
  · simp only [hdvd, ne_eq, not_false_iff, if_true]
    omega

theorem toUnsigned_getArraySize (h : 0 < arr.allocSize) :
    toUnsigned (arr.address + arr.getArraySize + (2 ^ 32 - 4)) = arr.lastWord := by
  have hfits := arr.fits
  have hlt := arr.address_lt
  rw [getArraySize_eq h, lastWord]
  unfold toUnsigned
  omega

theorem getAsInterval_eq (h : 0 < arr.allocSize) :
    arr.getAsInterval = (arr.address, arr.lastWord) := by
  rw [getAsInterval, toUnsigned_getArraySize h]
  exact if_pos (Nat.le_add_right _ _)

theorem lastWord_le (h : 0 < arr.allocSize) : arr.lastWord ≤ arr.lastByte := by
  unfold lastWord lastByte
  omega

end ArrayPlacement

namespace AbstractCacheImpl

variable (T : CacheTraits) {σ : Type}

/-! ## The scopes of an address -/

/-- `getCacheSetInterval`, on the bounds of an interval that may be empty. -/
def cacheSetBounds (bounds : ℕ × ℕ) : ℕ × ℕ :=
  if toUnsigned (T.nSets * T.lineSize) ≤ toUnsigned (bounds.2 + 4 - bounds.1) then
    (0, T.nSets - 1)
  else (getCacheSet T bounds.1, getCacheSet T bounds.2)

theorem getCacheSetInterval_eq (itv : AddressInterval) :
    getCacheSetInterval T itv = cacheSetBounds T (itv.lower, itv.upper) := rfl

/-- What the analysis of a set reports about a tag and about an array. -/
structure ScopeReports (σ : Type) where
  ofTag : σ → ℕ → List ℕ
  ofArray : σ → GlobalVariable → List ℕ

/-- `std::set_intersection` -/
def setIntersection (ret ret2 : List ℕ) : List ℕ := ret.filter (· ∈ ret2)

/-- The loop over the sets `index, ..., index + n - 1`. -/
def intersectSets (scopesOf : σ → List ℕ) (c : AbstractCacheImpl σ) :
    ℕ → ℕ → List ℕ → Except Fault (List ℕ)
  | 0, _, ret => .ok ret
  | n + 1, index, ret => do
    let set ← read c.cacheSets index
    intersectSets scopesOf c n (index + 1) (setIntersection ret (scopesOf set))

def getPersistentScopes (P : GlobalVariable → ArrayPlacement) (A : ScopeReports σ)
    (c : AbstractCacheImpl σ) (addr : AbstractAddress) : Except Fault (List ℕ) :=
  match addr.getArray with
  | some arr => do
    let csItv := cacheSetBounds T (P arr).getAsInterval
    let set ← read c.cacheSets csItv.1
    intersectSets (A.ofArray · arr) c (csItv.2 - csItv.1) (csItv.1 + 1) (A.ofArray set arr)
  | none => do
    assertThat addr.isPrecise "addr.isPrecise()"
    let (tag, index) := getTagAndIndex T addr.getAsInterval.lower
    let set ← read c.cacheSets index
    .ok (A.ofTag set tag)

/-- Only scopes are reported that all sets with a byte of the array report, whatever
the analysis of the sets is. -/
def CoversArray (P : GlobalVariable → ArrayPlacement) (arr : GlobalVariable) : Prop :=
  ∀ (σ : Type) (A : ScopeReports σ) (c : AbstractCacheImpl σ) (addr : AbstractAddress),
    addr.getArray = some arr → c.cacheSets.length = T.nSets →
    ∃ ret, getPersistentScopes T P A c addr = .ok ret ∧ ∀ scope ∈ ret, ∀ byte,
      (P arr).address ≤ byte → byte < (P arr).address + (P arr).allocSize →
      ∃ set, c.cacheSets[getCacheSet T byte]? = some set ∧ scope ∈ A.ofArray set arr

/-- The array takes up at least one way of the cache, as its size is computed. -/
def FillsWay (arr : ArrayPlacement) : Prop :=
  toUnsigned (T.nSets * T.lineSize) ≤ toUnsigned (arr.lastWord + 4 - arr.address)

/-- The arrays whose sets are all looked at: the sets from that of the first line to that
of the last word do not wrap around, and they are either all sets or those of the lines
up to the last byte. -/
def SetsInOrder (arr : ArrayPlacement) : Prop :=
  let first := arr.address / T.lineSize
  let steps := (arr.lastWord / T.lineSize - first) % T.nSets
  arr.allocSize = 0 ∨ FillsWay T arr ∨
    (first % T.nSets + steps < T.nSets ∧
      (arr.lastByte / T.lineSize - first = steps ∨ steps + 1 = T.nSets))

instance (arr : ArrayPlacement) : Decidable (FillsWay T arr) :=
  inferInstanceAs (Decidable (_ ≤ _))

instance (arr : ArrayPlacement) : Decidable (SetsInOrder T arr) :=
  inferInstanceAs (Decidable (_ ∨ _ ∨ _ ∧ _))

variable {T} {P : GlobalVariable → ArrayPlacement} {arr : GlobalVariable}

theorem mem_setIntersection {ret ret2 : List ℕ} {scope : ℕ} :
    scope ∈ setIntersection ret ret2 ↔ scope ∈ ret ∧ scope ∈ ret2 := by
  simp [setIntersection]

theorem intersectSets_spec (scopesOf : σ → List ℕ) (c : AbstractCacheImpl σ) (n index : ℕ)
    (hlen : index + n ≤ c.cacheSets.length) (ret : List ℕ) :
    ∃ ret', intersectSets scopesOf c n index ret = .ok ret' ∧ ∀ scope, scope ∈ ret' ↔
      scope ∈ ret ∧ ∀ i set, index ≤ i → i < index + n → c.cacheSets[i]? = some set →
        scope ∈ scopesOf set := by
  induction n generalizing index ret with
  | zero =>
    refine ⟨ret, rfl, fun scope => ?_⟩
    rw [iff_self_and]
    intro _ i set hle hlt
    omega
  | succ n ih =>
    have hindex : index < c.cacheSets.length := by omega
    have hget := List.getElem?_eq_getElem hindex
    obtain ⟨ret', hloop, hmem⟩ := ih (index + 1) (by omega)
      (setIntersection ret (scopesOf c.cacheSets[index]))
    refine ⟨ret', ?_, fun scope => ?_⟩
    · simp only [intersectSets, read_of_lt hindex, ok_bind, hloop]
    · rw [hmem, mem_setIntersection, and_assoc, and_congr_right_iff]
      intro _
      constructor
      · rintro ⟨hfirst, hrest⟩ i set hle hlt hset
        rcases hle.eq_or_lt with rfl | hle
        · rw [hget, Option.some.injEq] at hset
          exact hset ▸ hfirst
        · exact hrest i set hle (by omega) hset
      · intro h
        exact ⟨h index _ le_rfl (by omega) hget,
          fun i set hle hlt => h i set (by omega) (by omega)⟩

theorem cacheSetBounds_lt (hN : 0 < T.nSets) (bounds : ℕ × ℕ) :
    (cacheSetBounds T bounds).1 < T.nSets ∧ (cacheSetBounds T bounds).2 < T.nSets := by
  unfold cacheSetBounds
  split_ifs
  · exact ⟨hN, by dsimp only; omega⟩
  · exact ⟨Nat.mod_lt _ hN, Nat.mod_lt _ hN⟩

/-- The sets that are looked at: the first one, and those up to the second if it is
not below. -/
def LookedAt (csItv : ℕ × ℕ) (i : ℕ) : Prop := i = csItv.1 ∨ csItv.1 ≤ i ∧ i ≤ csItv.2

theorem getPersistentScopes_spec (hN : 0 < T.nSets) (A : ScopeReports σ)
    {c : AbstractCacheImpl σ} (hlen : c.cacheSets.length = T.nSets) {addr : AbstractAddress}
    (haddr : addr.getArray = some arr) :
    ∃ ret, getPersistentScopes T P A c addr = .ok ret ∧ ∀ scope, scope ∈ ret ↔
      ∀ i set, LookedAt (cacheSetBounds T (P arr).getAsInterval) i → c.cacheSets[i]? = some set →
        scope ∈ A.ofArray set arr := by
  obtain ⟨hfirst, hsecond⟩ := cacheSetBounds_lt hN (P arr).getAsInterval
  simp only [getPersistentScopes, haddr]
  generalize cacheSetBounds T (P arr).getAsInterval = csItv at hfirst hsecond
  have hlt : csItv.1 < c.cacheSets.length := by omega
  have hget := List.getElem?_eq_getElem hlt
  obtain ⟨ret, hloop, hmem⟩ := intersectSets_spec (A.ofArray · arr) c (csItv.2 - csItv.1)
    (csItv.1 + 1) (by omega) (A.ofArray c.cacheSets[csItv.1] arr)
  refine ⟨ret, ?_, fun scope => ?_⟩
  · simp only [read_of_lt hlt, ok_bind, hloop]
  · rw [hmem]
    constructor
    · rintro ⟨hin, hrest⟩ i set hi hset
      by_cases heq : i = csItv.1
      · subst heq
        rw [hget, Option.some.injEq] at hset
        exact hset ▸ hin
      · unfold LookedAt at hi
        exact hrest i set (by omega) (by omega) hset
    · intro h
      exact ⟨h _ _ (.inl rfl) hget,
        fun i set hle hlt => h i set (.inr ⟨by omega, by omega⟩)⟩

/-- An array is covered if and only if its bytes map to sets that are looked at. -/
theorem coversArray_iff_lookedAt (hN : 0 < T.nSets) :
    CoversArray T P arr ↔ ∀ byte, (P arr).address ≤ byte →
      byte < (P arr).address + (P arr).allocSize →
      LookedAt (cacheSetBounds T (P arr).getAsInterval) (getCacheSet T byte) := by
  constructor
  · intro h byte hle hlt
    -- all sets but that of the byte report the scope 0
    let A : ScopeReports Bool := ⟨fun _ _ => [], fun set _ => if set then [0] else []⟩
    let c : AbstractCacheImpl Bool := ⟨List.ofFn fun i : Fin T.nSets =>
      decide (i.val ≠ getCacheSet T byte)⟩
    let addr : AbstractAddress := ⟨.unknown, some arr⟩
    have haddr : addr.getArray = some arr := rfl
    have hlen : c.cacheSets.length = T.nSets := List.length_ofFn
    obtain ⟨ret, hret, hcov⟩ := h Bool A c addr haddr hlen
    obtain ⟨ret', hret', hmem⟩ := getPersistentScopes_spec (P := P) hN A hlen haddr
    have hsame : ret = ret' := by
      rw [hret] at hret'
      exact Except.ok.inj hret'
    subst hsame
    by_contra hnot
    have hin : 0 ∈ ret := by
      rw [hmem]
      intro i set hi hset
      have hne : i ≠ getCacheSet T byte := by
        rintro rfl
        exact hnot hi
      have htrue : set = true := by
        simp only [c, List.getElem?_ofFn] at hset
        split_ifs at hset with hlt'
        simpa [hne] using hset.symm
      simp [A, htrue]
    obtain ⟨set, hset, hscope⟩ := hcov 0 hin byte hle hlt
    have hfalse : set = false := by
      simp only [c, List.getElem?_ofFn] at hset
      split_ifs at hset with hlt'
      simpa using hset.symm
    simp [A, hfalse] at hscope
  · intro h σ A c addr haddr hlen
    obtain ⟨ret, hret, hmem⟩ := getPersistentScopes_spec (P := P) hN A hlen haddr
    refine ⟨ret, hret, fun scope hscope byte hle hlt => ?_⟩
    have hset : getCacheSet T byte < c.cacheSets.length := by
      rw [hlen]
      exact Nat.mod_lt _ hN
    have hget := List.getElem?_eq_getElem hset
    exact ⟨_, hget, (hmem scope).mp hscope _ _ (h byte hle hlt) hget⟩

/-- The sets of the bytes of an array, as residues of its lines. -/
theorem exists_byte_iff (hL : 0 < T.lineSize) {a : ArrayPlacement} (hpos : 0 < a.allocSize)
    {i : ℕ} : (∃ byte, a.address ≤ byte ∧ byte < a.address + a.allocSize ∧
        getCacheSet T byte = i) ↔
      Reached T.nSets (a.address / T.lineSize) (a.lastByte / T.lineSize) i := by
  have hfits := a.fits
  let itv : AddressInterval := ⟨a.address, a.lastByte,
    by unfold ArrayPlacement.lastByte; omega, by unfold ArrayPlacement.lastByte; omega⟩
  have hreached : ReachesSet T itv i ↔ _ := reachesSet_iff hL
  rw [← hreached]
  constructor
  · rintro ⟨byte, hle, hlt, hset⟩
    exact ⟨byte, ⟨hle, by simp only [itv, ArrayPlacement.lastByte]; omega⟩, hset⟩
  · rintro ⟨byte, ⟨hle, hup⟩, hset⟩
    simp only [itv, ArrayPlacement.lastByte] at hup
    exact ⟨byte, hle, by omega, hset⟩

/-- The scopes of an array are those of all its sets if and only if its sets are looked
at in order. -/
theorem coversArray_iff (hL : 0 < T.lineSize) (hN : 0 < T.nSets)
    (P : GlobalVariable → ArrayPlacement) (arr : GlobalVariable) :
    CoversArray T P arr ↔ SetsInOrder T (P arr) := by
  rw [coversArray_iff_lookedAt hN]
  unfold SetsInOrder
  generalize P arr = a
  by_cases hpos : 0 < a.allocSize
  · rw [or_iff_right hpos.ne', ArrayPlacement.getAsInterval_eq hpos]
    by_cases hfull : FillsWay T a
    · have hbounds : cacheSetBounds T (a.address, a.lastWord) = (0, T.nSets - 1) := if_pos hfull
      rw [hbounds]
      refine iff_of_true (fun byte _ _ => ?_) (.inl hfull)
      have hlt : getCacheSet T byte < T.nSets := Nat.mod_lt _ hN
      exact .inr ⟨Nat.zero_le _, by dsimp only; omega⟩
    · have hbounds : cacheSetBounds T (a.address, a.lastWord) =
          (a.address / T.lineSize % T.nSets, a.lastWord / T.lineSize % T.nSets) := if_neg hfull
      have hfirst : a.address / T.lineSize ≤ a.lastWord / T.lineSize :=
        Nat.div_le_div_right (Nat.le_add_right _ _)
      have hlast : a.lastWord / T.lineSize ≤ a.lastByte / T.lineSize :=
        Nat.div_le_div_right (ArrayPlacement.lastWord_le hpos)
      rw [or_iff_right hfull, ← reached_subset_iff hN hfirst hlast, hbounds]
      constructor
      · intro h i _ hreached
        obtain ⟨byte, hle, hlt, rfl⟩ := (exists_byte_iff hL hpos).mpr hreached
        exact h byte hle hlt
      · intro h byte hle hlt
        exact h _ (Nat.mod_lt _ hN) ((exists_byte_iff hL hpos).mp ⟨byte, hle, hlt, rfl⟩)
  · have hzero : a.allocSize = 0 := by omega
    refine iff_of_true (fun byte hle hlt => ?_) (.inl hzero)
    omega

/-- Every array at the same place. -/
def placedAt (address allocSize : ℕ) (haddress : address < 2 ^ 32)
    (hfits : address + allocSize ≤ 2 ^ 32) : GlobalVariable → ArrayPlacement :=
  fun _ => ⟨address, allocSize, haddress, hfits⟩

/-- Two lines in the sets 1 and 2 of four sets. -/
theorem coversArray_twoSets :
    CoversArray (fourSets 2) (placedAt 16 32 (by decide) (by decide)) 0 :=
  (coversArray_iff (by decide) (by decide) (placedAt 16 32 (by decide) (by decide)) 0).mpr
    (by decide)

section Example

open MultiScopePersistence

/-- The set-wise analysis of a private cache, without arrays. -/
def privateSetWise : PersistenceAnalysis SetWiseCountingPersistence :=
  setWise (fourSets 2) (.single 0 64 (by decide) (by decide)) .none
    ⟨false, 0, ⟨false, 0, [], fun _ => []⟩⟩

def setWiseReports : ScopeReports (MultiScopePersistence SetWiseCountingPersistence) where
  ofTag m tag := m.getPersistentScopes privateSetWise tag
  ofArray m arr := m.getPersistentScopesOfArray privateSetWise arr

/-- A set in which the scope 7 has been entered, before and after an unknown access. -/
def opened (top : Bool) : MultiScopePersistence SetWiseCountingPersistence :=
  ⟨OrderedMap.empty.insert 7 ⟨0, top, ∅, []⟩, OrderedMap.empty.insert 7 1⟩

example : MultiScopePersistence.new.enterScope privateSetWise 7 = opened false := by decide

example : (opened false).potentialUpdate privateSetWise .getUnknownAddress .load false =
    .ok (opened true, none) := by decide

/-- Two lines in the sets 3 and 0: the set 0, after an unknown access, does not report the
scope that the set 3 reports. -/
theorem not_coversArray_wrapped :
    ¬ CoversArray (fourSets 2) (placedAt 0xd0030 32 (by decide) (by decide)) 0 := by
  intro h
  obtain ⟨ret, hret, hcov⟩ := h _ setWiseReports
    ⟨[opened true, opened false, opened false, opened false]⟩ ⟨.unknown, some 0⟩ rfl rfl
  have hseven : getPersistentScopes (fourSets 2) (placedAt 0xd0030 32 (by decide) (by decide))
      setWiseReports ⟨[opened true, opened false, opened false, opened false]⟩
      ⟨.unknown, some 0⟩ = .ok [7] := by decide
  rw [hseven] at hret
  obtain rfl : [7] = ret := Except.ok.inj hret
  obtain ⟨set, hset, hscope⟩ := hcov 7 (List.mem_singleton_self 7) 0xd0040 (by decide) (by decide)
  obtain rfl : opened true = set := Option.some.inj hset
  exact absurd hscope (by decide)

end Example

end AbstractCacheImpl

end Llvmta
