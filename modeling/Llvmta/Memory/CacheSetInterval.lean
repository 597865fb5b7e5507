import Llvmta.Library.CyclicInterval
import Llvmta.Memory.AbstractCache

/-!
# The cache sets that an imprecise access reaches

An access with several lines in its interval is to be an unknown access to
exactly those sets to which an address of the interval maps. Whether `update`
does this depends on the test for the full range, which compares the number of
bytes of the interval, not that of its lines, with the size of the sets.
-/

namespace Llvmta

open Checked Cyclic

namespace AbstractCacheImpl

variable {T : CacheTraits} {σ : Type} {C : CacheSetAnalysis σ}

/-- Some address of the interval maps to the set `index`. -/
def ReachesSet (T : CacheTraits) (itv : AddressInterval) (index : ℕ) : Prop :=
  ∃ addr ∈ itv, getCacheSet T addr = index

/-- The result of an update whose unknown accesses are those to the sets with `p`. -/
def UpdatedWhere (C : CacheSetAnalysis σ) (addr : AbstractAddress) (load_store : AccessType)
    (wantReport : Bool) (p : ℕ → Prop) (c c' : AbstractCacheImpl σ) : Prop :=
  c'.cacheSets.length = c.cacheSets.length ∧ ∀ i s, c.cacheSets[i]? = some s →
    (p i → ∃ s' report, C.potentialUpdate s addr load_store wantReport = .ok (s', report) ∧
      c'.cacheSets[i]? = some s') ∧
    (¬ p i → c'.cacheSets[i]? = some s)

/-- The update of an imprecise address reaches exactly the sets of its
addresses, whatever the analysis of the sets is; in particular it does not fail
if the analysis does not. -/
def UpdatesReachedSets (T : CacheTraits) (addr : AbstractAddress) : Prop :=
  ∀ (σ : Type) (C : CacheSetAnalysis σ) (c : AbstractCacheImpl σ) (load_store : AccessType)
    (wantReport : Bool) (assumption : Classification),
    c.cacheSets.length = T.nSets →
    (∀ s, ∃ res, C.potentialUpdate s addr load_store wantReport = .ok res) →
    ∃ c' report, update T C c addr load_store wantReport assumption = .ok (c', report) ∧
      UpdatedWhere C addr load_store wantReport (ReachesSet T addr.interval) c c'

/-- The test of `getCacheSetInterval` for the full range. -/
def FullRange (T : CacheTraits) (itv : AddressInterval) : Prop :=
  toUnsigned (T.nSets * T.lineSize) ≤ toUnsigned (itv.upper + 4 - itv.lower)

instance (itv : AddressInterval) : Decidable (FullRange T itv) :=
  inferInstanceAs (Decidable (_ ≤ _))

/-- The number of cache lines that an interval touches. -/
def lineCount (T : CacheTraits) (itv : AddressInterval) : ℕ :=
  itv.upper / T.lineSize - itv.lower / T.lineSize + 1

/-- The intervals for which the sets are computed correctly. -/
def ExactInterval (T : CacheTraits) (itv : AddressInterval) : Prop :=
  if FullRange T itv then T.nSets ≤ lineCount T itv
  else lineCount T itv ≤ T.nSets ∨ T.nSets ∣ lineCount T itv

instance (itv : AddressInterval) : Decidable (ExactInterval T itv) :=
  inferInstanceAs (Decidable (if FullRange T itv then T.nSets ≤ lineCount T itv
    else lineCount T itv ≤ T.nSets ∨ T.nSets ∣ lineCount T itv))

/-! ## The loop over the sets -/

section Loop

variable {addr : AbstractAddress} {load_store : AccessType} {wantReport : Bool}
  {f : σ → σ × Option UpdateReport}

/-- Apply `f` to the sets `index, ..., index + n - 1`. -/
def mapSets (f : σ → σ) (index n : ℕ) (l : List σ) : List σ :=
  l.mapIdx fun i s => if index ≤ i ∧ i < index + n then f s else s

theorem mapSets_succ (f : σ → σ) (index n : ℕ) (l : List σ) {s : σ} (hs : l[index]? = some s) :
    mapSets f (index + 1) n (l.set index (f s)) = mapSets f index (n + 1) l := by
  apply List.ext_getElem?
  intro i
  simp only [mapSets, List.getElem?_mapIdx, List.getElem?_set]
  by_cases hi : index = i
  · subst i
    obtain ⟨hlt, _⟩ := List.getElem?_eq_some_iff.mp hs
    rw [if_pos rfl, if_pos hlt, hs]
    simp
  · rw [if_neg hi]
    have hrange : (index + 1 ≤ i ∧ i < index + 1 + n) ↔ (index ≤ i ∧ i < index + (n + 1)) := by
      omega
    simp only [hrange]

theorem updateUnknownSets_eq (hf : ∀ s, C.potentialUpdate s addr load_store wantReport = .ok (f s))
    (n index : ℕ) (c : AbstractCacheImpl σ) (hlen : index + n ≤ c.cacheSets.length)
    (report : Option UpdateReport) :
    ∃ report', updateUnknownSets C addr load_store wantReport n index c report =
        .ok (⟨mapSets (fun s => (f s).1) index n c.cacheSets⟩, report') ∧
      (wantReport = false → report' = report) := by
  induction n generalizing index c report with
  | zero =>
    refine ⟨report, ?_, fun _ => rfl⟩
    have hid : mapSets (fun s => (f s).1) index 0 c.cacheSets = c.cacheSets := by
      apply List.ext_getElem?
      intro i
      have hnone : ¬ (index ≤ i ∧ i < index + 0) := by omega
      simp only [mapSets, List.getElem?_mapIdx, hnone, if_false, Option.map_id']
    rw [updateUnknownSets, hid]
  | succ n ih =>
    have hindex : index < c.cacheSets.length := by omega
    have hread : read c.cacheSets index = .ok c.cacheSets[index] := read_of_lt hindex
    have hwrite (s : σ) : write c.cacheSets index s = .ok (c.cacheSets.set index s) :=
      write_of_lt hindex s
    have hsucc := mapSets_succ (fun s => (f s).1) index n c.cacheSets
      (List.getElem?_eq_getElem hindex)
    simp only [updateUnknownSets, hread, ok_bind, hf, hwrite]
    obtain ⟨report', hloop, hreport⟩ := ih (index + 1)
      ⟨c.cacheSets.set index (f c.cacheSets[index]).1⟩ (by simpa using by omega) _
    rw [hsucc] at hloop
    refine ⟨report', hloop, ?_⟩
    rintro rfl
    exact hreport rfl

theorem getCacheSetInterval_lt (hN : 0 < T.nSets) (itv : AddressInterval) :
    (getCacheSetInterval T itv).1 < T.nSets ∧ (getCacheSetInterval T itv).2 < T.nSets := by
  unfold getCacheSetInterval
  split_ifs
  · exact ⟨hN, by dsimp only; omega⟩
  · exact ⟨Nat.mod_lt _ hN, Nat.mod_lt _ hN⟩

/-- An imprecise update that does not fail reaches the sets between the ends of
the computed interval. -/
theorem updateImprecise_eq (hf : ∀ s, C.potentialUpdate s addr load_store wantReport = .ok (f s))
    (hN : 0 < T.nSets) {c : AbstractCacheImpl σ} (hlen : c.cacheSets.length = T.nSets)
    {lower upper : ℕ} (hitv : getCacheSetInterval T addr.interval = (lower, upper))
    (hne : T.nSets = 1 ∨ lower ≠ upper) :
    ∃ report, updateImprecise T C c addr load_store wantReport =
      .ok (⟨c.cacheSets.mapIdx fun i s =>
        if Between T.nSets lower upper i then (f s).1 else s⟩, report) := by
  obtain ⟨hlower, hupper⟩ := getCacheSetInterval_lt hN addr.interval
  rw [hitv] at hlower hupper
  dsimp only at hlower hupper
  have hassert : (T.nSets == 1 || lower != upper) = true := by simpa using hne
  simp only [updateImprecise, hitv, assertThat_of hassert, ok_bind]
  by_cases hle : lower ≤ upper
  · obtain ⟨report, hloop, _⟩ := updateUnknownSets_eq hf (upper + 1 - lower) lower c (by omega) none
    simp only [hle, if_true, hloop, ok_bind]
    have hrange (i : ℕ) : (lower ≤ i ∧ i < lower + (upper + 1 - lower)) ↔
        Between T.nSets lower upper i := by
      rw [between_of_le hle]
      omega
    simp only [mapSets, hrange]
    exact ⟨_, rfl⟩
  · obtain ⟨report, hloop, hnone⟩ :=
      updateUnknownSets_eq hf (T.nSets - lower) lower c (by omega) none
    obtain ⟨report₂, hloop₂, hnone₂⟩ := updateUnknownSets_eq hf (upper + 1) 0
      ⟨mapSets (fun s => (f s).1) lower (T.nSets - lower) c.cacheSets⟩
      (by simp only [mapSets, List.length_mapIdx]; omega) none
    have hsets : mapSets (fun s => (f s).1) 0 (upper + 1)
        (mapSets (fun s => (f s).1) lower (T.nSets - lower) c.cacheSets) =
        c.cacheSets.mapIdx fun i s => if Between T.nSets lower upper i then (f s).1 else s := by
      apply List.ext_getElem?
      intro i
      have hbetween := between_of_lt (N := T.nSets) (i := i) (Nat.lt_of_not_le hle)
      simp only [mapSets, List.getElem?_mapIdx, Option.map_map, hbetween]
      congr 1
      funext s
      simp only [Function.comp]
      split_ifs <;> first | rfl | omega
    rw [hsets] at hloop₂
    simp only [hle, if_false, hloop, hloop₂, ok_bind]
    cases wantReport with
    | true => exact ⟨_, rfl⟩
    | false =>
      rw [hnone rfl, hnone₂ rfl]
      exact ⟨_, rfl⟩

end Loop

/-! ## Exact intervals -/

theorem reachesSet_iff (hL : 0 < T.lineSize) {itv : AddressInterval} {i : ℕ} :
    ReachesSet T itv i ↔
      Reached T.nSets (itv.lower / T.lineSize) (itv.upper / T.lineSize) i := by
  constructor
  · rintro ⟨addr, ⟨hlow, hup⟩, rfl⟩
    exact ⟨addr / T.lineSize, Nat.div_le_div_right hlow, Nat.div_le_div_right hup, rfl⟩
  · rintro ⟨n, hlow, hup, rfl⟩
    -- the first byte of the line, or the lower bound if the line starts before it
    refine ⟨max (n * T.lineSize) itv.lower, ⟨le_max_right _ _, max_le ?_ itv.lower_le⟩, ?_⟩
    · exact (Nat.le_div_iff_mul_le hL).mp hup
    · have hdiv : max (n * T.lineSize) itv.lower / T.lineSize = n := by
        apply le_antisymm
        · rcases max_choice (n * T.lineSize) itv.lower with h | h
          · rw [h, Nat.mul_div_cancel _ hL]
          · rw [h]
            exact hlow
        · exact (Nat.le_div_iff_mul_le hL).mpr (le_max_left _ _)
      rw [getCacheSet, hdiv]

/-- The sets that are updated, as an interval of residues. -/
theorem updateImprecise_between {addr : AbstractAddress} {load_store : AccessType}
    {wantReport : Bool} {f : σ → σ × Option UpdateReport}
    (hf : ∀ s, C.potentialUpdate s addr load_store wantReport = .ok (f s))
    (hN : 0 < T.nSets) {c : AbstractCacheImpl σ} (hlen : c.cacheSets.length = T.nSets)
    (hne : T.nSets = 1 ∨
      (getCacheSetInterval T addr.interval).1 ≠ (getCacheSetInterval T addr.interval).2) :
    ∃ c' report, updateImprecise T C c addr load_store wantReport = .ok (c', report) ∧
      UpdatedWhere C addr load_store wantReport
        (Between T.nSets (getCacheSetInterval T addr.interval).1
          (getCacheSetInterval T addr.interval).2) c c' := by
  have hitv : getCacheSetInterval T addr.interval =
      ((getCacheSetInterval T addr.interval).1, (getCacheSetInterval T addr.interval).2) :=
    Prod.mk.eta.symm
  obtain ⟨report, hu⟩ := updateImprecise_eq hf hN hlen hitv hne
  refine ⟨_, report, hu, by simp, ?_⟩
  intro i s hs
  rw [List.getElem?_mapIdx, hs, Option.map_some]
  constructor
  · intro hb
    exact ⟨(f s).1, (f s).2, hf s, by rw [if_pos hb]⟩
  · intro hb
    rw [if_neg hb]

/-- An analysis that counts the unknown accesses to each set. -/
def counting : CacheSetAnalysis ℕ where
  new _ := 0
  classify _ _ := .ok .clUnknown
  update n _ _ _ _ := .ok (n, none)
  potentialUpdate n _ _ _ := .ok (n + 1, none)
  join n m := .ok (max n m)
  equals n m := n == m

/-- Two descriptions of the sets that the same update reaches agree. -/
theorem updatedWhere_counting {addr : AbstractAddress} {p q : ℕ → Prop} {N : ℕ}
    {c' : AbstractCacheImpl ℕ}
    (hp : UpdatedWhere counting addr .load false p ⟨List.replicate N 0⟩ c')
    (hq : UpdatedWhere counting addr .load false q ⟨List.replicate N 0⟩ c') {i : ℕ} (hi : i < N) :
    p i ↔ q i := by
  have hzero : (List.replicate N 0)[i]? = some 0 := by simp [hi]
  have hone {r : ℕ → Prop} (hr : UpdatedWhere counting addr .load false r ⟨List.replicate N 0⟩ c') :
      (r i → c'.cacheSets[i]? = some 1) ∧ (¬ r i → c'.cacheSets[i]? = some 0) := by
    obtain ⟨hyes, hno⟩ := hr.2 i 0 hzero
    refine ⟨fun h => ?_, hno⟩
    obtain ⟨s', report, hs', hget⟩ := hyes h
    simp only [counting, Except.ok.injEq, Prod.mk.injEq] at hs'
    rw [hget, ← hs'.1]
  obtain ⟨hp₁, hp₀⟩ := hone hp
  obtain ⟨hq₁, hq₀⟩ := hone hq
  constructor
  · intro h
    by_contra hn
    rw [hp₁ h] at hq₀
    simp at hq₀
    exact hn hq₀
  · intro h
    by_contra hn
    rw [hq₁ h] at hp₀
    simp at hp₀
    exact hn hp₀

/-- The computed interval is exact, and its ends differ, for exact intervals. -/
theorem exactInterval_iff (hL : 0 < T.lineSize) (hN : 0 < T.nSets) (itv : AddressInterval)
    (hlines : itv.lower / T.lineSize < itv.upper / T.lineSize) :
    ExactInterval T itv ↔
      (T.nSets = 1 ∨ (getCacheSetInterval T itv).1 ≠ (getCacheSetInterval T itv).2) ∧
      ∀ i < T.nSets, ReachesSet T itv i ↔
        Between T.nSets (getCacheSetInterval T itv).1 (getCacheSetInterval T itv).2 i := by
  have hab := hlines.le
  simp only [reachesSet_iff hL]
  unfold ExactInterval lineCount
  by_cases hfull : FullRange T itv
  · have hitv : getCacheSetInterval T itv = (0, T.nSets - 1) := if_pos hfull
    have hbetween (i : ℕ) (hi : i < T.nSets) : Between T.nSets 0 (T.nSets - 1) i := by
      rw [between_of_le (Nat.zero_le _)]
      omega
    rw [if_pos hfull, hitv]
    constructor
    · intro hlong
      refine ⟨by dsimp only; omega, fun i hi => ?_⟩
      exact iff_of_true (reached_of_long hi hab hlong) (hbetween i hi)
    · rintro ⟨_, hall⟩
      by_contra hshort
      obtain ⟨i, hi, hnot⟩ := exists_not_reached hab (Nat.lt_of_not_le hshort)
      exact hnot ((hall i hi).mpr (hbetween i hi))
  · have hitv : getCacheSetInterval T itv =
        (itv.lower / T.lineSize % T.nSets, itv.upper / T.lineSize % T.nSets) := if_neg hfull
    have hiff := reached_iff_between hN hab
    rw [if_neg hfull, hitv]
    dsimp only
    rw [hiff, Nat.succ_le_iff]
    refine ⟨fun h => ⟨?_, h⟩, fun h => h.2⟩
    -- the ends agree only if the distance is a multiple of the number of sets
    have hu := mod_upper hN hab
    have hr := Nat.mod_lt (itv.lower / T.lineSize) hN
    have hs := Nat.mod_lt (itv.upper / T.lineSize - itv.lower / T.lineSize) hN
    rw [dvd_add_one_iff hN] at h
    rcases h with h | h
    · rw [Nat.mod_eq_of_lt h] at hu
      split_ifs at hu <;> omega
    · split_ifs at hu <;> omega

/-- For an interval of several lines, `update` reaches exactly the sets of its
addresses if and only if the interval is exact. -/
theorem updatesReachedSets_iff {k j : ℕ} (hk : k < 32) (hL : T.lineSize = 2 ^ k)
    (hN : T.nSets = 2 ^ j) (addr : AbstractAddress)
    (hlines : alignToCacheline T addr.interval.lower ≠ alignToCacheline T addr.interval.upper) :
    UpdatesReachedSets T addr ↔ ExactInterval T addr.interval := by
  have hLpos : 0 < T.lineSize := hL ▸ Nat.two_pow_pos k
  have hNpos : 0 < T.nSets := hN ▸ Nat.two_pow_pos j
  have hlower : addr.interval.lower < 2 ^ 32 := addr.interval.lower_le.trans_lt addr.interval.upper_lt
  have hlt : addr.interval.lower / T.lineSize < addr.interval.upper / T.lineSize := by
    apply lt_of_le_of_ne (Nat.div_le_div_right addr.interval.lower_le)
    intro heq
    exact hlines ((getCachelineAddress_inj T hk hL hlower addr.interval.upper_lt).mpr heq)
  rw [exactInterval_iff hLpos hNpos addr.interval hlt]
  constructor
  · intro h
    obtain ⟨c', report, hupdate, hwhere⟩ := h ℕ counting ⟨List.replicate T.nSets 0⟩ .load false
      .clUnknown (by simp) fun s => ⟨_, rfl⟩
    rw [update, if_neg hlines] at hupdate
    have hne : T.nSets = 1 ∨
        (getCacheSetInterval T addr.interval).1 ≠ (getCacheSetInterval T addr.interval).2 := by
      by_contra hfail
      have hassert : (T.nSets == 1 || (getCacheSetInterval T addr.interval).1 !=
          (getCacheSetInterval T addr.interval).2) = false := by simpa using hfail
      simp [updateImprecise, assertThat, hassert] at hupdate
    refine ⟨hne, fun i hi => ?_⟩
    have hpot (s : ℕ) : counting.potentialUpdate s addr .load false = .ok (s + 1, none) := rfl
    obtain ⟨d, _, hd, hwhere'⟩ :=
      updateImprecise_between hpot hNpos (c := ⟨List.replicate T.nSets 0⟩) (by simp) hne
    rw [hd] at hupdate
    simp only [Except.ok.injEq, Prod.mk.injEq] at hupdate
    exact updatedWhere_counting hwhere (hupdate.1 ▸ hwhere') hi
  · rintro ⟨hne, hiff⟩ σ C c load_store wantReport assumption hlen hpot
    choose f hf using hpot
    obtain ⟨c', report, hu, hlen', hwhere⟩ := updateImprecise_between hf hNpos hlen hne
    refine ⟨c', report, ?_, hlen', fun i s hs => ?_⟩
    · rw [update, if_neg hlines]
      exact hu
    · have hi : i < T.nSets := by
        obtain ⟨hi, _⟩ := List.getElem?_eq_some_iff.mp hs
        omega
      rw [hiff i hi]
      exact hwhere i s hs

/-- Four lines of 16 bytes fit in one exact interval of four sets. -/
theorem updatesReachedSets_iff_fourLines :
    let T : CacheTraits := ⟨16, 2, 4, false, false, 1, 5⟩
    UpdatesReachedSets T ⟨⟨15, 50, by decide, by decide⟩, none⟩ ↔
      ExactInterval T ⟨15, 50, by decide, by decide⟩ :=
  updatesReachedSets_iff (T := ⟨16, 2, 4, false, false, 1, 5⟩) (k := 4) (j := 2) (by decide) rfl rfl
    ⟨⟨15, 50, by decide, by decide⟩, none⟩ (by decide)

/-- An interval of 53 bytes in five lines: its ends map to the same set. -/
theorem not_updatesReachedSets_fiveLines :
    ¬ UpdatesReachedSets ⟨16, 2, 4, false, false, 1, 5⟩ ⟨⟨12, 64, by decide, by decide⟩, none⟩ := by
  intro h
  obtain ⟨c', report, hupdate, _⟩ := h ℕ counting ⟨List.replicate 4 0⟩ .load false .clUnknown
    (by simp) fun s => ⟨_, rfl⟩
  have hfail : update ⟨16, 2, 4, false, false, 1, 5⟩ counting ⟨List.replicate 4 0⟩
      ⟨⟨12, 64, by decide, by decide⟩, none⟩ .load false .clUnknown =
      .error (.assertion "Could have performed precise update") := by rfl
  rw [hfail] at hupdate
  cases hupdate

end AbstractCacheImpl

end Llvmta
