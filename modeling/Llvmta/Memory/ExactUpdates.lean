import Llvmta.Memory.CacheSetInterval
import Llvmta.Memory.StaticAddressProvider

/-!
# What an access makes of each set

The analyses over a program graph update a cache without asking for reports. An access in one
line changes the set of this line. An access in several lines, the interval of which is exact,
is an unknown access to the sets of its addresses. The analysis of a set has to return on the
sets of the cache only.
-/

namespace Llvmta

open Checked Cyclic

/-- All addresses of an access are in one line. -/
def SameLine (T : CacheTraits) (addr : AbstractAddress) : Prop :=
  alignToCacheline T addr.interval.lower = alignToCacheline T addr.interval.upper

instance (T : CacheTraits) (addr : AbstractAddress) : Decidable (SameLine T addr) :=
  inferInstanceAs (Decidable (_ = _))

/-- An access of which the sets are computed correctly. -/
def ExactAccess (T : CacheTraits) (addr : AbstractAddress) : Prop :=
  SameLine T addr ∨ AbstractCacheImpl.ExactInterval T addr.interval

instance (T : CacheTraits) (addr : AbstractAddress) : Decidable (ExactAccess T addr) :=
  inferInstanceAs (Decidable (_ ∨ _))

section Lines

variable {T : CacheTraits} (hT : T.Geometry) {addr : AbstractAddress}

include hT

theorem sameLine_iff : SameLine T addr ↔
    addr.interval.lower / T.lineSize = addr.interval.upper / T.lineSize := by
  obtain ⟨k, hk, hL⟩ := hT.lineSize_pow
  have hlower := addr.interval.lower_le.trans_lt addr.interval.upper_lt
  exact getCachelineAddress_inj T hk hL hlower addr.interval.upper_lt

/-- The line of an address has its tag. -/
theorem getTagOf_lineAddress {a : ℕ} (h : a < 2 ^ 32) :
    getTagOf T (lineAddress T a) = .ok (getTag T a) := by
  have hline : alignToCacheline T a / T.lineSize = a / T.lineSize := by
    rw [alignToCacheline, hT.getCachelineAddress_eq h, Nat.mul_div_cancel _ hT.lineSize_pos]
  simp only [getTagOf, lineAddress, AbstractAddress.ofAddress, AddressInterval.point, beq_self_eq_true,
    assertThat_true, ok_bind, getTag, hline]

/-- The addresses of an access in one line have one tag and one set. -/
theorem eq_of_sameLine (h : SameLine T addr) {a : ℕ} (ha : a ∈ addr.interval) :
    getTag T a = getTag T addr.interval.lower ∧ getindex T a = getindex T addr.interval.lower := by
  have hline : a / T.lineSize = addr.interval.lower / T.lineSize := by
    apply le_antisymm
    · rw [(sameLine_iff hT).mp h]
      exact Nat.div_le_div_right ha.2
    · exact Nat.div_le_div_right ha.1
  simp only [getTag, getindex, hline, and_self]

end Lines

namespace AbstractCacheImpl

variable {T : CacheTraits} {σ : Type} {C : CacheSetAnalysis σ} {addr : AbstractAddress}
  {load_store : AccessType} {assumption : Classification} {c c' : AbstractCacheImpl σ} {i : ℕ}

/-- The unknown access returns on the sets with `p`. -/
def ReturnsWhere (C : CacheSetAnalysis σ) (addr : AbstractAddress) (load_store : AccessType)
    (p : ℕ → Prop) (c : AbstractCacheImpl σ) : Prop :=
  ∀ i s, c.cacheSets[i]? = some s → p i →
    ∃ res, C.potentialUpdate s addr load_store false = .ok res

/-- The loop over the sets, for any number of them. -/
theorem updateUnknownSets_where (n index : ℕ) (hlen : index + n ≤ c.cacheSets.length)
    (hok : ReturnsWhere C addr load_store (fun i => index ≤ i ∧ i < index + n) c) :
    ∃ c', updateUnknownSets C addr load_store false n index c none = .ok (c', none) ∧
      UpdatedWhere C addr load_store false (fun i => index ≤ i ∧ i < index + n) c c' := by
  induction n generalizing index c with
  | zero =>
    refine ⟨c, rfl, rfl, fun i s hs => ⟨fun hi => ?_, fun _ => hs⟩⟩
    omega
  | succ n ih =>
    have hindex : index < c.cacheSets.length := by omega
    obtain ⟨⟨t, report⟩, ht⟩ :=
      hok index _ (List.getElem?_eq_getElem hindex) ⟨le_rfl, by omega⟩
    have hother : ∀ i ≠ index, (c.cacheSets.set index t)[i]? = c.cacheSets[i]? := fun i hi =>
      List.getElem?_set_ne (Ne.symm hi)
    have hrest : ReturnsWhere C addr load_store (fun i => index + 1 ≤ i ∧ i < index + 1 + n)
        ⟨c.cacheSets.set index t⟩ := by
      intro i s hs hi
      rw [hother i (by omega)] at hs
      exact hok i s hs ⟨by omega, by omega⟩
    obtain ⟨c', hloop, hlen', hwhere⟩ := ih (index + 1) (by simpa using by omega) hrest
    have hstep : updateUnknownSets C addr load_store false (n + 1) index c none =
        updateUnknownSets C addr load_store false n (index + 1) ⟨c.cacheSets.set index t⟩ none := by
      rw [updateUnknownSets, read_of_lt hindex, ok_bind, ht, ok_bind]
      dsimp only
      rw [write_of_lt hindex, ok_bind]
      rfl
    refine ⟨c', hstep.trans hloop, by simpa using hlen', fun i s hs => ?_⟩
    by_cases hi : i = index
    · subst hi
      have hset : (c.cacheSets.set i t)[i]? = some t := List.getElem?_set_self hindex
      obtain rfl : c.cacheSets[i] = s := Option.some_inj.mp
        ((List.getElem?_eq_getElem hindex).symm.trans hs)
      have hkept := (hwhere i t hset).2 (by omega)
      exact ⟨fun _ => ⟨t, report, ht, hkept⟩, fun hi => absurd ⟨le_rfl, by omega⟩ hi⟩
    · obtain ⟨hin, hout⟩ := hwhere i s ((hother i hi).trans hs)
      exact ⟨fun h => hin ⟨by omega, by omega⟩, fun h => hout fun h' => h ⟨by omega, by omega⟩⟩

/-- Two loops over different sets. -/
theorem UpdatedWhere.trans {p q : ℕ → Prop} {d : AbstractCacheImpl σ}
    (h : UpdatedWhere C addr load_store false p c c')
    (h' : UpdatedWhere C addr load_store false q c' d) (hpq : ∀ i, ¬(p i ∧ q i)) :
    UpdatedWhere C addr load_store false (fun i => p i ∨ q i) c d := by
  refine ⟨h'.1.trans h.1, fun i s hs => ?_⟩
  obtain ⟨hin, hout⟩ := h.2 i s hs
  by_cases hp : p i
  · obtain ⟨t, report, ht, hget⟩ := hin hp
    have hkept := (h'.2 i t hget).2 fun hq => hpq i ⟨hp, hq⟩
    exact ⟨fun _ => ⟨t, report, ht, hkept⟩, fun hn => absurd (.inl hp) hn⟩
  · obtain ⟨hin', hout'⟩ := h'.2 i s (hout hp)
    exact ⟨fun hpq => hin' (hpq.resolve_left hp), fun hn => hout' fun hq => hn (.inr hq)⟩

theorem UpdatedWhere.congr {p q : ℕ → Prop} (h : UpdatedWhere C addr load_store false p c c')
    (hpq : ∀ i < c.cacheSets.length, p i ↔ q i) :
    UpdatedWhere C addr load_store false q c c' := by
  refine ⟨h.1, fun i s hs => ?_⟩
  have hi := (List.getElem?_eq_some_iff.mp hs).choose
  rw [← hpq i hi]
  exact h.2 i s hs

theorem updateImprecise_where (hN : 0 < T.nSets) (hlen : c.cacheSets.length = T.nSets)
    (hne : T.nSets = 1 ∨
      (getCacheSetInterval T addr.interval).1 ≠ (getCacheSetInterval T addr.interval).2)
    (hok : ReturnsWhere C addr load_store (Between T.nSets
      (getCacheSetInterval T addr.interval).1 (getCacheSetInterval T addr.interval).2) c) :
    ∃ c', updateImprecise T C c addr load_store false = .ok (c', none) ∧
      UpdatedWhere C addr load_store false (Between T.nSets
        (getCacheSetInterval T addr.interval).1 (getCacheSetInterval T addr.interval).2) c c' := by
  obtain ⟨hlower, hupper⟩ := getCacheSetInterval_lt hN addr.interval
  unfold updateImprecise
  generalize getCacheSetInterval T addr.interval = itv at hne hok hlower hupper ⊢
  obtain ⟨lower, upper⟩ := itv
  dsimp only at hne hok hlower hupper ⊢
  have hassert : (T.nSets == 1 || lower != upper) = true := by simpa using hne
  rw [assertThat_of hassert, ok_bind]
  by_cases hle : lower ≤ upper
  · have hrange (i : ℕ) : Between T.nSets lower upper i ↔
        lower ≤ i ∧ i < lower + (upper + 1 - lower) := by
      rw [between_of_le hle]
      omega
    obtain ⟨c', hloop, hwhere⟩ := updateUnknownSets_where (c := c) (upper + 1 - lower) lower
      (by omega) fun i s hs hi => hok i s hs ((hrange i).mpr hi)
    rw [if_pos hle, hloop]
    exact ⟨c', rfl, hwhere.congr fun i _ => (hrange i).symm⟩
  · have hrange (i : ℕ) (hi : i < T.nSets) : Between T.nSets lower upper i ↔
        (lower ≤ i ∧ i < lower + (T.nSets - lower)) ∨ (0 ≤ i ∧ i < 0 + (upper + 1)) := by
      rw [between_of_lt (Nat.lt_of_not_le hle)]
      omega
    have hlt {d : AbstractCacheImpl σ} (hd : d.cacheSets.length = T.nSets) {i : ℕ} {s : σ}
        (hs : d.cacheSets[i]? = some s) : i < T.nSets := by
      rw [← hd]
      exact (List.getElem?_eq_some_iff.mp hs).choose
    obtain ⟨d, hloop, hwhere⟩ := updateUnknownSets_where (c := c) (T.nSets - lower) lower
      (by omega) fun i s hs hi => hok i s hs ((hrange i (hlt hlen hs)).mpr (.inl hi))
    have hlend : d.cacheSets.length = T.nSets := hwhere.1.trans hlen
    have hrest : ReturnsWhere C addr load_store (fun i => 0 ≤ i ∧ i < 0 + (upper + 1)) d := by
      intro i s hs hi
      have hiN := hlt hlend hs
      have hread : c.cacheSets[i]? = some s := by
        have hic : i < c.cacheSets.length := by omega
        have hkept := (hwhere.2 i _ (List.getElem?_eq_getElem hic)).2 (by omega)
        rw [List.getElem?_eq_getElem hic, ← hkept, hs]
      exact hok i s hread ((hrange i hiN).mpr (.inr hi))
    obtain ⟨c', hloop', hwhere'⟩ := updateUnknownSets_where (upper + 1) 0 (by omega) hrest
    rw [if_neg hle, hloop, ok_bind]
    dsimp only
    rw [hloop', ok_bind]
    refine ⟨c', rfl, (hwhere.trans hwhere' fun i hi => ?_).congr fun i hi => ?_⟩
    · omega
    · exact (hrange i (by omega)).symm

/-- What an access makes of the state `s` of the set `i`. -/
def SetStep (T : CacheTraits) (C : CacheSetAnalysis σ) (addr : AbstractAddress)
    (load_store : AccessType) (assumption : Classification) (i : ℕ) (s s' : σ) : Prop :=
  if SameLine T addr then
    if getindex T addr.interval.lower = i then
      ∃ report, C.update s (lineAddress T addr.interval.lower) load_store false assumption =
        .ok (s', report)
    else s' = s
  else
    (ReachesSet T addr.interval i → ∃ report,
      C.potentialUpdate s addr load_store false = .ok (s', report)) ∧
    (¬ ReachesSet T addr.interval i → s' = s)

theorem SetStep.unique {s s' s'' : σ} (h : SetStep T C addr load_store assumption i s s')
    (h' : SetStep T C addr load_store assumption i s s'') : s' = s'' := by
  have hok {r : Except Fault (σ × Option UpdateReport)} {t t' : σ}
      {report report' : Option UpdateReport} (ht : r = .ok (t, report))
      (ht' : r = .ok (t', report')) : t = t' :=
    congrArg Prod.fst (Except.ok.inj (ht.symm.trans ht'))
  unfold SetStep at h h'
  split_ifs at h h'
  · obtain ⟨_, h⟩ := h
    obtain ⟨_, h'⟩ := h'
    exact hok h h'
  · rw [h, h']
  · by_cases hreach : ReachesSet T addr.interval i
    · obtain ⟨_, h⟩ := h.1 hreach
      obtain ⟨_, h'⟩ := h'.1 hreach
      exact hok h h'
    · rw [h.2 hreach, h'.2 hreach]

/-- An exact access changes each set on its own, if the analysis returns on each of them. -/
theorem update_exact (hT : T.Geometry) (hexact : ExactAccess T addr)
    (hlen : c.cacheSets.length = T.nSets)
    (hok : ∀ i s, c.cacheSets[i]? = some s →
      ∃ s', SetStep T C addr load_store assumption i s s') :
    ∃ c' report, update T C c addr load_store false assumption = .ok (c', report) ∧
      c'.cacheSets.length = T.nSets ∧ ∀ i s, c.cacheSets[i]? = some s →
        ∃ s', c'.cacheSets[i]? = some s' ∧ SetStep T C addr load_store assumption i s s' := by
  unfold SetStep at hok ⊢
  by_cases hline : SameLine T addr
  · simp only [if_pos hline] at hok ⊢
    have hindex : getindex T addr.interval.lower < c.cacheSets.length := by
      rw [hlen]
      exact Nat.mod_lt _ hT.nSets_pos
    obtain ⟨t, ht⟩ := hok _ _ (List.getElem?_eq_getElem hindex)
    rw [if_pos rfl] at ht
    obtain ⟨report, ht⟩ := ht
    have hupdate : update T C c addr load_store false assumption =
        .ok (⟨c.cacheSets.set (getindex T addr.interval.lower) t⟩, report) := by
      have hpos : (getTagAndIndex T addr.interval.lower).2 = getindex T addr.interval.lower := rfl
      have hprecise : update T C c addr load_store false assumption =
          updatePrecise T C c addr load_store false assumption := if_pos hline
      rw [hprecise, updatePrecise]
      dsimp only
      rw [hpos, read_of_lt hindex, ok_bind, ht, ok_bind]
      dsimp only
      rw [write_of_lt hindex, ok_bind]
      simp
    refine ⟨_, report, hupdate, by simpa using hlen, fun i s hs => ?_⟩
    by_cases hi : getindex T addr.interval.lower = i
    · subst hi
      obtain rfl := Option.some_inj.mp ((List.getElem?_eq_getElem hindex).symm.trans hs)
      exact ⟨t, List.getElem?_set_self hindex, by rw [if_pos rfl]; exact ⟨report, ht⟩⟩
    · exact ⟨s, (List.getElem?_set_ne hi).trans hs, by rw [if_neg hi]⟩
  · simp only [if_neg hline] at hok ⊢
    have hlt : addr.interval.lower / T.lineSize < addr.interval.upper / T.lineSize := by
      apply lt_of_le_of_ne (Nat.div_le_div_right addr.interval.lower_le)
      exact fun heq => hline ((sameLine_iff hT).mpr heq)
    obtain ⟨hne, hbetween⟩ := (exactInterval_iff hT.lineSize_pos hT.nSets_pos addr.interval
      hlt).mp (hexact.resolve_left hline)
    have hreturns : ReturnsWhere C addr load_store (Between T.nSets
        (getCacheSetInterval T addr.interval).1 (getCacheSetInterval T addr.interval).2) c := by
      intro i s hs hi
      have hiN : i < T.nSets := by
        rw [← hlen]
        exact (List.getElem?_eq_some_iff.mp hs).choose
      obtain ⟨s', hin, _⟩ := hok i s hs
      obtain ⟨report, hs'⟩ := hin ((hbetween i hiN).mpr hi)
      exact ⟨_, hs'⟩
    obtain ⟨c', hupdate, hwhere⟩ := updateImprecise_where hT.nSets_pos hlen hne hreturns
    obtain ⟨hlen', hsets⟩ := hwhere.congr (q := ReachesSet T addr.interval) fun i hi =>
      (hbetween i (hlen ▸ hi)).symm
    refine ⟨c', none, ?_, hlen'.trans hlen, fun i s hs => ?_⟩
    · have himprecise : update T C c addr load_store false assumption =
          updateImprecise T C c addr load_store false := if_neg hline
      rw [himprecise, hupdate]
    · obtain ⟨hin, hout⟩ := hsets i s hs
      by_cases hreach : ReachesSet T addr.interval i
      · obtain ⟨s', report, hs', hget⟩ := hin hreach
        exact ⟨s', hget, fun _ => ⟨report, hs'⟩, fun hnot => absurd hreach hnot⟩
      · exact ⟨s, hout hreach, fun h => absurd h hreach, fun _ => rfl⟩

end AbstractCacheImpl

end Llvmta
