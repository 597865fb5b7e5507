import Llvmta.PathAnalysis.CoRunnerSensitivePathAnalysis

/-!
# Soundness of the co-runner-sensitive path analysis

The bound that is returned is compared with the path analysis under the constraints
that the access cycle bounds of the last iteration stand for. On the way to the
greatest fixed point the bound never gets below it. On the way to the least one it is
equal to it, unless an infinite result is mistaken for a bound that went down.
-/

namespace Llvmta

open Checked EncodedTop

namespace CoRunner

section Constraints

variable (P : PathAnalyses)

/-- The cycles that another core can block this one at most. -/
def maxBlocking : WithTop ℤ := (toInt P.maxAccesses).map (· * P.busCyclesPerAccess)

/-- The cycles that a core with this access cycle bound can block this one. -/
def blockedBy (accessCycleBound : ℤ) : WithTop ℤ := min (decode accessCycleBound) (maxBlocking P)

/-- The accesses that so many blocking cycles stem from. -/
def accessesOf (cycles : ℤ) : ℤ := (cycles + P.busCyclesPerAccess - 1) / P.busCyclesPerAccess

/-- The constraints that the access cycle bounds of the other cores stand for. -/
def interference (accessCycleBounds : List ℤ) : BlockingConstraints :=
  ((accessCycleBounds.map (blockedBy P)).sum,
    (accessCycleBounds.map fun b => (blockedBy P b).map (accessesOf P)).sum)

/-- Bounds of the other cores that are not below those before. -/
def AtMost (bounds bounds' : List ℤ) : Prop :=
  List.Forall₂ (fun b b' => decode b ≤ decode b') bounds bounds'

theorem AtMost.refl (bounds : List ℤ) : AtMost bounds bounds :=
  List.forall₂_same.mpr fun _ _ => le_rfl

theorem AtMost.trans {a b c : List ℤ} (h : AtMost a b) (h' : AtMost b c) : AtMost a c := by
  induction h generalizing c with
  | nil => exact h'
  | cons hhead _ ih =>
    cases h' with
    | cons hhead' htail' => exact .cons (hhead.trans hhead') (ih htail')

variable {P}

theorem accessesOf_mono {x y : ℤ} (h : x ≤ y) : accessesOf P x ≤ accessesOf P y := by
  have hpos : (0 : ℤ) < P.busCyclesPerAccess := by exact_mod_cast P.busCyclesPerAccess_pos
  exact Int.ediv_le_ediv hpos (by omega)

theorem map_accessesOf_mono {x y : WithTop ℤ} (h : x ≤ y) :
    x.map (accessesOf P) ≤ y.map (accessesOf P) := by
  cases y with
  | top => exact le_top
  | coe y =>
    cases x with
    | top => exact absurd (top_le_iff.mp h) WithTop.coe_ne_top
    | coe x => exact WithTop.coe_le_coe.mpr (accessesOf_mono (WithTop.coe_le_coe.mp h))

theorem interference_mono {bounds bounds' : List ℤ} (h : AtMost bounds bounds') :
    interference P bounds ≤ interference P bounds' := by
  induction h with
  | nil => exact le_rfl
  | cons hhead _ ih =>
    have hblocked := min_le_min_right (maxBlocking P) hhead
    exact ⟨add_le_add hblocked ih.1, add_le_add (map_accessesOf_mono hblocked) ih.2⟩

end Constraints

section Bounds

variable {opts : CoRunnerOptions} {P : PathAnalyses} {a : ℕ} {bounds : List ℤ} {b : ℤ}

/-- Access cycle bounds are natural numbers, or infinite. -/
def ValidBounds (bounds : List ℤ) : Prop := ∀ b ∈ bounds, -1 ≤ b

theorem accessBound_eq (hwcet : opts.noWcetBound = false) :
    accessBound opts P = encode P.maxAccesses := by
  simp [accessBound, hwcet]

theorem maxBlockingPerCore_eq (hwcet : opts.noWcetBound = false)
    (ha : P.maxAccesses = WithTop.some a) :
    maxBlockingPerCore opts P = ↑(a * P.busCyclesPerAccess) ∧
      maxBlocking P = WithTop.some (maxBlockingPerCore opts P) := by
  have hmax : maxBlockingPerCore opts P = ↑(a * P.busCyclesPerAccess) := by
    rw [maxBlockingPerCore, accessBound_eq hwcet, ha, encode_coe, Nat.cast_mul]
  refine ⟨hmax, ?_⟩
  rw [hmax, maxBlocking, ha, toInt_coe, Nat.cast_mul]
  rfl

/-- With finitely many accesses the contribution of a core is what it can block. -/
theorem blockingContribution_eq (hwcet : opts.noWcetBound = false)
    (ha : P.maxAccesses = WithTop.some a) (hb : -1 ≤ b) :
    0 ≤ blockingContribution opts P b ∧
      WithTop.some (blockingContribution opts P b) = blockedBy P b := by
  obtain ⟨hmax, hmaxBlocking⟩ := maxBlockingPerCore_eq hwcet ha
  have hnonneg : 0 ≤ maxBlockingPerCore opts P := by
    rw [hmax]
    exact Int.natCast_nonneg _
  unfold blockingContribution blockedBy
  rw [hmaxBlocking]
  by_cases hinf : b = infinity
  · subst hinf
    rw [if_neg fun h => h.1 rfl]
    exact ⟨hnonneg, by rw [show decode infinity = ⊤ from decode_neg_one, min_top_left]⟩
  · have hdecode : decode b = WithTop.some b := decode_of_ne hinf
    have hb0 : 0 ≤ b := by
      have hne : b ≠ -1 := hinf
      omega
    rw [hdecode]
    by_cases hlt : b < maxBlockingPerCore opts P
    · rw [if_pos ⟨hinf, hlt⟩, min_eq_left (WithTop.coe_le_coe.mpr hlt.le)]
      exact ⟨hb0, rfl⟩
    · rw [if_neg fun h => hlt h.2, min_eq_right (WithTop.coe_le_coe.mpr (not_lt.mp hlt))]
      exact ⟨hnonneg, rfl⟩

/-- Nonnegative numbers are rounded up. -/
theorem concAccessesContribution_eq (h : 0 ≤ blockingContribution opts P b) :
    concAccessesContribution opts P b = accessesOf P (blockingContribution opts P b) := by
  have hpos : (0 : ℤ) < P.busCyclesPerAccess := by exact_mod_cast P.busCyclesPerAccess_pos
  unfold concAccessesContribution accessesOf
  dsimp only
  generalize blockingContribution opts P b = x at h ⊢
  generalize (P.busCyclesPerAccess : ℤ) = n at hpos ⊢
  rw [Int.tdiv_eq_ediv_of_nonneg h, Int.tmod_eq_emod_of_nonneg h]
  have hdiv := Int.mul_ediv_add_emod x n
  have hmod := Int.emod_nonneg x hpos.ne'
  have hlt := Int.emod_lt_of_pos x hpos
  symm
  split_ifs with hrest
  · rw [Int.ediv_eq_iff_of_pos hpos]
    constructor <;> nlinarith
  · rw [Int.ediv_eq_iff_of_pos hpos]
    constructor <;> nlinarith

theorem sum_map_some (f : ℤ → ℤ) (g : ℤ → WithTop ℤ) (h : ∀ b ∈ bounds, g b = WithTop.some (f b)) :
    (bounds.map g).sum = WithTop.some (bounds.map f).sum := by
  induction bounds with
  | nil => rfl
  | cons b bounds ih =>
    rw [List.forall_mem_cons] at h
    rw [List.map_cons, List.map_cons, List.sum_cons, List.sum_cons, h.1, ih h.2]
    rfl

/-- With finitely many accesses the calculated bounds are what the other cores can do. -/
theorem interference_eq (hwcet : opts.noWcetBound = false) (ha : P.maxAccesses = WithTop.some a)
    (hbounds : ValidBounds bounds) :
    interference P bounds =
      (WithTop.some (bounds.map (blockingContribution opts P)).sum,
        WithTop.some (bounds.map (concAccessesContribution opts P)).sum) := by
  apply Prod.ext
  · apply sum_map_some
    intro b hb
    exact (blockingContribution_eq hwcet ha (hbounds b hb)).2.symm
  · apply sum_map_some
    intro b hb
    obtain ⟨hnonneg, heq⟩ := blockingContribution_eq hwcet ha (hbounds b hb)
    rw [← heq, concAccessesContribution_eq hnonneg]
    rfl

theorem sum_blockingContribution_nonneg (hwcet : opts.noWcetBound = false)
    (ha : P.maxAccesses = WithTop.some a) (hbounds : ValidBounds bounds) :
    0 ≤ (bounds.map (blockingContribution opts P)).sum ∧
      0 ≤ (bounds.map (concAccessesContribution opts P)).sum := by
  constructor
  · apply List.sum_nonneg
    intro x hx
    obtain ⟨b, hb, rfl⟩ := List.mem_map.mp hx
    exact (blockingContribution_eq hwcet ha (hbounds b hb)).1
  · apply List.sum_nonneg
    intro x hx
    obtain ⟨b, hb, rfl⟩ := List.mem_map.mp hx
    have hnonneg := (blockingContribution_eq hwcet ha (hbounds b hb)).1
    have hpos : (0 : ℤ) < P.busCyclesPerAccess := by exact_mod_cast P.busCyclesPerAccess_pos
    rw [concAccessesContribution_eq hnonneg]
    exact Int.ediv_nonneg (by omega) hpos.le

/-- With infinitely many accesses each core contributes the negated cycles of one. -/
theorem blockingContribution_of_top (hwcet : opts.noWcetBound = false) (ha : P.maxAccesses = ⊤)
    (hb : -1 ≤ b) : blockingContribution opts P b = -P.busCyclesPerAccess := by
  have hpos : (0 : ℤ) < P.busCyclesPerAccess := by exact_mod_cast P.busCyclesPerAccess_pos
  have hmax : maxBlockingPerCore opts P = -P.busCyclesPerAccess := by
    rw [maxBlockingPerCore, accessBound_eq hwcet, ha, encode_top, neg_one_mul]
  unfold blockingContribution infinity
  rw [hmax, if_neg (by omega)]

theorem sum_map_const (f : ℤ → ℤ) (x : ℤ) (h : ∀ b ∈ bounds, f b = x) :
    (bounds.map f).sum = bounds.length * x := by
  have hconst : bounds.map f = List.replicate bounds.length x :=
    List.eq_replicate_iff.mpr ⟨List.length_map _, fun y hy => by
      obtain ⟨b, hb, rfl⟩ := List.mem_map.mp hy
      exact h b hb⟩
  rw [hconst, List.sum_replicate, nsmul_eq_mul]

/-- Bounds that are not below those before, with the same sum, are those before. -/
theorem map_eq_of_sum_eq {f : ℤ → ℤ} {bounds' : List ℤ}
    (h : List.Forall₂ (fun b b' => f b ≤ f b') bounds bounds')
    (hsum : (bounds'.map f).sum ≤ (bounds.map f).sum) : bounds.map f = bounds'.map f := by
  have hle : ∀ {l l' : List ℤ}, List.Forall₂ (fun b b' => f b ≤ f b') l l' →
      (l.map f).sum ≤ (l'.map f).sum := by
    intro l l' hl
    induction hl with
    | nil => exact le_rfl
    | cons hhead _ ih =>
      rw [List.map_cons, List.map_cons, List.sum_cons, List.sum_cons]
      exact add_le_add hhead ih
  induction h with
  | nil => rfl
  | cons hhead htail ih =>
    rw [List.map_cons, List.map_cons, List.sum_cons, List.sum_cons] at hsum
    have hrest := hle htail
    rw [List.map_cons, List.map_cons, ih (by omega)]
    congr 1
    omega

end Bounds

section Step

variable {opts : CoRunnerOptions} {P : PathAnalyses} {s s' : CoRunnerState}
  {round : CoRunnerRound}

/-- The result of a path analysis with the constraints for the new bounds. -/
def newWcetBound (opts : CoRunnerOptions) (P : PathAnalyses) (bounds : List ℤ) : ℤ :=
  encode (P.maxTime (constraintOf (bounds.map (blockingContribution opts P)).sum,
    constraintOf (bounds.map (concAccessesContribution opts P)).sum))

/-- The comparison of a bound with the one before, as the integers they are. -/
def WentWrong (opts : CoRunnerOptions) (old new : ℤ) : Prop :=
  match opts.fixedPointType with
  | .greatest => old < new
  | .least => new < old

theorem wrongDirection_iff :
    wrongDirection opts s = true ↔ WentWrong opts s.previousWcetBound s.wcetBound := by
  unfold wrongDirection WentWrong
  cases opts.fixedPointType <;> exact decide_eq_true_iff

theorem calcBlockingConstr_eq_ok (h : calcBlockingConstr s = .ok s')
    (hrec : s.recalculateWcetBound = true) :
    (s.blockingBound ≠ infinity ∨ s.concAccessesBound ≠ infinity) ∧
      s' = { s with
        flowAndBlockingConstr :=
          (constraintOf s.blockingBound, constraintOf s.concAccessesBound) } := by
  obtain ⟨_, hassert, h⟩ := bind_eq_ok.mp h
  have hfinite := of_assertThat hassert
  rw [Bool.or_eq_true, bne_iff_ne, bne_iff_ne] at hfinite
  rw [if_pos hrec] at h
  cases h
  exact ⟨hfinite, rfl⟩

theorem calcWcetBound_eq (hwcet : opts.noWcetBound = false)
    (hfinite : s.blockingBound ≠ infinity ∨ s.concAccessesBound ≠ infinity) :
    calcWcetBound opts P s = { s with wcetBound := encode (P.maxTime s.flowAndBlockingConstr) } := by
  unfold calcWcetBound
  rw [hwcet, if_neg Bool.false_ne_true]
  dsimp only
  rw [if_pos hfinite]

/-- A recalculated bound is the result of the path analysis, unless that goes in the
wrong direction. -/
theorem recalculate_eq_ok (hwcet : opts.noWcetBound = false) (h : recalculate opts P s = .ok s')
    (hrec : s.recalculateWcetBound = true) :
    (s.blockingBound ≠ infinity ∨ s.concAccessesBound ≠ infinity) ∧
      s'.blockingBound = s.blockingBound ∧
      (WentWrong opts s.previousWcetBound (encode (P.maxTime
          (constraintOf s.blockingBound, constraintOf s.concAccessesBound))) ∧
          s'.wcetBound = s.previousWcetBound ∨
        ¬WentWrong opts s.previousWcetBound (encode (P.maxTime
          (constraintOf s.blockingBound, constraintOf s.concAccessesBound))) ∧
          s'.wcetBound = encode (P.maxTime
            (constraintOf s.blockingBound, constraintOf s.concAccessesBound))) := by
  obtain ⟨s₁, hconstr, h⟩ := bind_eq_ok.mp h
  obtain ⟨hfinite, rfl⟩ := calcBlockingConstr_eq_ok hconstr hrec
  have hcalc : calcWcetBound opts P { s with
      flowAndBlockingConstr :=
        (constraintOf s.blockingBound, constraintOf s.concAccessesBound) } = _ :=
    calcWcetBound_eq hwcet hfinite
  dsimp only at h hcalc
  rw [hcalc] at h
  obtain ⟨_, _, h⟩ := bind_eq_ok.mp h
  refine ⟨hfinite, ?_⟩
  split at h
  · rename_i hwrong
    cases h
    exact ⟨rfl, .inl ⟨wrongDirection_iff.mp hwrong, rfl⟩⟩
  · rename_i hwrong
    cases h
    exact ⟨rfl, .inr ⟨fun hw => hwrong (wrongDirection_iff.mpr hw), rfl⟩⟩

theorem calcAndExchangeAccessCycleBounds_frame
    (h : calcAndExchangeAccessCycleBounds opts P s round = .ok s') :
    s'.wcetBound = s.wcetBound ∧ s'.blockingBound = s.blockingBound := by
  unfold calcAndExchangeAccessCycleBounds at h
  split_ifs at h
  · obtain ⟨_, _, h⟩ := bind_eq_ok.mp h
    cases h
    exact ⟨rfl, rfl⟩
  · obtain ⟨_, _, h⟩ := bind_eq_ok.mp h
    cases h
    exact ⟨rfl, rfl⟩

/-- What one iteration does: nothing to an infinite bound; otherwise the blocking bound
is updated, and the WCET bound is kept, recalculated, or kept in spite of that. -/
theorem additionalIteration_cases (hwcet : opts.noWcetBound = false)
    (h : additionalIteration opts P s round = .ok s') :
    s.wcetBound = infinity ∧ s'.wcetBound = infinity ∨
    s.wcetBound ≠ infinity ∧ round.accessCycleBounds.length = opts.numConcurrentCores ∧
      s'.blockingBound = (round.accessCycleBounds.map (blockingContribution opts P)).sum ∧
      (shouldRecalculate opts P s s'.blockingBound = false ∧ s'.wcetBound = s.wcetBound ∨
        shouldRecalculate opts P s s'.blockingBound = true ∧
          (s'.blockingBound ≠ infinity ∨
            (round.accessCycleBounds.map (concAccessesContribution opts P)).sum ≠ infinity) ∧
          (WentWrong opts s.wcetBound (newWcetBound opts P round.accessCycleBounds) ∧
              s'.wcetBound = s.wcetBound ∨
            ¬WentWrong opts s.wcetBound (newWcetBound opts P round.accessCycleBounds) ∧
              s'.wcetBound = newWcetBound opts P round.accessCycleBounds)) := by
  obtain ⟨s₁, hexchange, h⟩ := bind_eq_ok.mp h
  obtain ⟨hwcetBound, hblockingBound⟩ := calcAndExchangeAccessCycleBounds_frame hexchange
  dsimp only at h
  by_cases hinf : s₁.wcetBound = infinity
  · left
    rw [if_neg (not_not.mpr hinf)] at h
    cases h
    exact ⟨hwcetBound.symm.trans hinf, hinf⟩
  right
  rw [if_pos hinf] at h
  obtain ⟨_, hblocking, h⟩ := bind_eq_ok.mp h
  obtain ⟨_, hlength, hblocking⟩ := bind_eq_ok.mp hblocking
  cases hblocking
  have hshould : shouldRecalculate opts P s₁ = shouldRecalculate opts P s := by
    unfold shouldRecalculate
    rw [hwcetBound, hblockingBound]
  refine ⟨hwcetBound ▸ hinf, beq_iff_eq.mp (of_assertThat hlength), ?_⟩
  dsimp only at h
  rw [hshould, hwcetBound] at h
  split at h
  · rename_i hrecalculate
    obtain ⟨hfinite, hblocking', hcases⟩ := recalculate_eq_ok hwcet h hrecalculate
    dsimp only at hblocking'
    refine ⟨hblocking', .inr ⟨hblocking' ▸ hrecalculate, hblocking' ▸ hfinite, hcases⟩⟩
  · rename_i hrecalculate
    cases h
    exact ⟨rfl, .inl ⟨Bool.eq_false_iff.mpr hrecalculate, rfl⟩⟩

end Step

section Greatest

variable {opts : CoRunnerOptions} {P : PathAnalyses} {s s' : CoRunnerState}
  {round : CoRunnerRound} {constraints : BlockingConstraints}

theorem constraintOf_of_nonneg {x : ℤ} (h : 0 ≤ x) : constraintOf x = WithTop.some x :=
  if_pos fun hinf => by
    rw [hinf] at h
    exact absurd h (by decide)

/-- With finitely many accesses the new bound is the one under what the others can do. -/
theorem newWcetBound_eq {a : ℕ} {bounds : List ℤ} (hwcet : opts.noWcetBound = false)
    (ha : P.maxAccesses = WithTop.some a) (hbounds : ValidBounds bounds) :
    newWcetBound opts P bounds = encode (P.maxTime (interference P bounds)) := by
  obtain ⟨hblocking, hconc⟩ := sum_blockingContribution_nonneg hwcet ha hbounds
  rw [newWcetBound, constraintOf_of_nonneg hblocking, constraintOf_of_nonneg hconc,
    interference_eq hwcet ha hbounds]

theorem sum_blockingContribution_of_top {bounds : List ℤ} (hwcet : opts.noWcetBound = false)
    (ha : P.maxAccesses = ⊤) (hbounds : ValidBounds bounds) :
    (bounds.map (blockingContribution opts P)).sum = bounds.length * -P.busCyclesPerAccess :=
  sum_map_const _ _ fun b hb => blockingContribution_of_top hwcet ha (hbounds b hb)

/-- Without a bound on the accesses the bound is never recalculated towards the greatest
fixed point. -/
theorem maxAccesses_ne_top_of_shouldRecalculate (hwcet : opts.noWcetBound = false)
    (hgreatest : opts.fixedPointType = .greatest) {bounds : List ℤ} (hbounds : ValidBounds bounds)
    (hlength : bounds.length = opts.numConcurrentCores)
    (h : shouldRecalculate opts P s (bounds.map (blockingContribution opts P)).sum = true) :
    P.maxAccesses ≠ ⊤ := by
  intro ha
  rw [sum_blockingContribution_of_top hwcet ha hbounds, hlength] at h
  have hmax : maxBlockingPerCore opts P = -P.busCyclesPerAccess := by
    rw [maxBlockingPerCore, accessBound_eq hwcet, ha, encode_top, neg_one_mul]
  simp only [shouldRecalculate, hgreatest, hmax, Bool.and_eq_true, decide_eq_true_eq] at h
  have hlt := h.2
  rw [mul_comm] at hlt
  exact lt_irrefl _ hlt

/-- On the way to the greatest fixed point, a bound that is sound for some constraints
stays so for tighter ones. -/
theorem greatest_step (hwcet : opts.noWcetBound = false)
    (hgreatest : opts.fixedPointType = .greatest) (hmono : Monotone P.maxTime)
    (hbounds : ValidBounds round.accessCycleBounds)
    (hle : interference P round.accessCycleBounds ≤ constraints)
    (hsound : toInt (P.maxTime constraints) ≤ decode s.wcetBound)
    (h : additionalIteration opts P s round = .ok s') :
    toInt (P.maxTime (interference P round.accessCycleBounds)) ≤ decode s'.wcetBound := by
  have htighter : toInt (P.maxTime (interference P round.accessCycleBounds)) ≤
      decode s.wcetBound :=
    (toInt_le_toInt.mpr (hmono hle)).trans hsound
  rcases additionalIteration_cases hwcet h with ⟨_, hinf⟩ | ⟨_, hlength, hblocking, hcases⟩
  · rw [hinf, show decode infinity = ⊤ from decode_neg_one]
    exact le_top
  rcases hcases with ⟨_, hkept⟩ | ⟨hrecalculate, _, ⟨_, hkept⟩ | ⟨_, hnew⟩⟩
  · rwa [hkept]
  · rwa [hkept]
  · rw [hblocking] at hrecalculate
    have hfinite := maxAccesses_ne_top_of_shouldRecalculate hwcet hgreatest hbounds hlength
      hrecalculate
    obtain ⟨a, ha⟩ := WithTop.ne_top_iff_exists.mp hfinite
    rw [hnew, newWcetBound_eq hwcet ha.symm hbounds, decode_encode]

end Greatest

section Least

variable {opts : CoRunnerOptions} {P : PathAnalyses} {s s' : CoRunnerState}
  {round : CoRunnerRound} {bounds : List ℤ} {a : ℕ}

/-- What holds on the way to the least fixed point after an iteration with these bounds,
if there are finitely many accesses. -/
structure LeastInv (opts : CoRunnerOptions) (P : PathAnalyses) (bounds : List ℤ)
    (s : CoRunnerState) : Prop where
  finite : 0 ≤ s.wcetBound
  blocking : s.blockingBound = (bounds.map (blockingContribution opts P)).sum
  exact : P.maxTime (interference P bounds) ≠ ⊤ →
    s.wcetBound = encode (P.maxTime (interference P bounds))

theorem ne_infinity_of_nonneg {x : ℤ} (h : 0 ≤ x) : x ≠ infinity := by
  intro hinf
  rw [hinf] at h
  exact absurd h (by decide)

/-- If the bounds grow without the sum of the contributions, the others can do nothing
new. -/
theorem interference_eq_of_sum_le (hwcet : opts.noWcetBound = false)
    (ha : P.maxAccesses = WithTop.some a) {bounds' : List ℤ} (hbounds : ValidBounds bounds)
    (hbounds' : ValidBounds bounds') (hle : AtMost bounds bounds')
    (hsum : (bounds'.map (blockingContribution opts P)).sum ≤
      (bounds.map (blockingContribution opts P)).sum) :
    interference P bounds = interference P bounds' := by
  have hcontribution : List.Forall₂
      (fun b b' => blockingContribution opts P b ≤ blockingContribution opts P b')
      bounds bounds' := by
    clear hsum
    induction hle with
    | nil => exact .nil
    | @cons b b' _ _ hhead _ ih =>
      have hb := (blockingContribution_eq hwcet ha (hbounds b List.mem_cons_self)).2
      have hb' := (blockingContribution_eq hwcet ha (hbounds' b' List.mem_cons_self)).2
      have hblocked := min_le_min_right (maxBlocking P) hhead
      refine .cons ?_ (ih (fun x hx => hbounds x (List.mem_cons_of_mem _ hx))
        fun x hx => hbounds' x (List.mem_cons_of_mem _ hx))
      apply WithTop.coe_le_coe.mp
      calc WithTop.some (blockingContribution opts P b) = blockedBy P b := hb
        _ ≤ blockedBy P b' := hblocked
        _ = WithTop.some (blockingContribution opts P b') := hb'.symm
  have hblocking := map_eq_of_sum_eq hcontribution hsum
  have hconc : bounds.map (concAccessesContribution opts P) =
      bounds'.map (concAccessesContribution opts P) := by
    have hfactor : concAccessesContribution opts P =
        (fun x => x.tdiv P.busCyclesPerAccess +
          if 1 ≤ x.tmod P.busCyclesPerAccess then 1 else 0) ∘ blockingContribution opts P := rfl
    rw [hfactor, ← List.map_map, ← List.map_map, hblocking]
  rw [interference_eq hwcet ha hbounds, interference_eq hwcet ha hbounds', hblocking, hconc]

/-- On the way to the least fixed point the bound is exact, unless the path analysis
under the new constraints has no finite result: this goes in the wrong direction. -/
theorem LeastInv.step (hwcet : opts.noWcetBound = false)
    (hleast : opts.fixedPointType = .least) (hmono : Monotone P.maxTime)
    (ha : P.maxAccesses = WithTop.some a) (hbounds : ValidBounds bounds)
    (hround : ValidBounds round.accessCycleBounds) (hle : AtMost bounds round.accessCycleBounds)
    (hinv : LeastInv opts P bounds s) (h : additionalIteration opts P s round = .ok s') :
    LeastInv opts P round.accessCycleBounds s' := by
  have hwider := hmono (interference_mono (P := P) hle)
  rcases additionalIteration_cases hwcet h with ⟨hinf, _⟩ | ⟨_, _, hblocking, hcases⟩
  · exact absurd hinf (ne_infinity_of_nonneg hinv.finite)
  rcases hcases with ⟨hsame, hkept⟩ | ⟨_, _, hcases⟩
  · have hsum : s'.blockingBound ≤ s.blockingBound := by
      simp only [shouldRecalculate, hleast, Bool.or_eq_false_iff, decide_eq_false_iff_not] at hsame
      exact not_lt.mp hsame.2
    rw [hblocking, hinv.blocking] at hsum
    have heq := interference_eq_of_sum_le hwcet ha hbounds hround hle hsum
    exact ⟨hkept ▸ hinv.finite, hblocking, fun hne => by
      rw [hkept, ← heq]
      exact hinv.exact (heq ▸ hne)⟩
  · have hnew := newWcetBound_eq hwcet ha hround
    simp only [WentWrong, hleast] at hcases
    rcases hcases with ⟨hwrong, hkept⟩ | ⟨hright, hset⟩
    · refine ⟨hkept ▸ hinv.finite, hblocking, fun hne => ?_⟩
      have hprev : P.maxTime (interference P bounds) ≠ ⊤ := ne_top_of_le_ne_top hne hwider
      have hgrown := encode_le_encode hwider hne
      rw [hnew, hinv.exact hprev] at hwrong
      exact absurd hwrong (not_lt.mpr hgrown)
    · have hfinite := hinv.finite.trans (not_lt.mp hright)
      exact ⟨hset ▸ hfinite, hblocking, fun _ => hset.trans hnew⟩

/-- What holds on the way to the least fixed point without a bound on the accesses. -/
structure UnboundedInv (opts : CoRunnerOptions) (P : PathAnalyses) (s : CoRunnerState) : Prop where
  wcetBound : s.wcetBound = encode (P.maxTime (0, 0))
  finite : 0 ≤ s.wcetBound
  blocking : s.blockingBound = 0 ∨
    s.blockingBound = opts.numConcurrentCores * -P.busCyclesPerAccess

theorem sum_concAccessesContribution_of_top (hwcet : opts.noWcetBound = false)
    (ha : P.maxAccesses = ⊤) (hbounds : ValidBounds bounds) :
    (bounds.map (concAccessesContribution opts P)).sum = bounds.length * -1 := by
  have hpos : (P.busCyclesPerAccess : ℤ) ≠ 0 := by
    have := P.busCyclesPerAccess_pos
    omega
  apply sum_map_const
  intro b hb
  rw [concAccessesContribution, blockingContribution_of_top hwcet ha (hbounds b hb)]
  simp [Int.neg_tdiv, Int.tdiv_self hpos, Int.neg_tmod]

/-- Then the blocking bound is negative and leads to no other WCET bound. -/
theorem UnboundedInv.step (hwcet : opts.noWcetBound = false)
    (hleast : opts.fixedPointType = .least) (ha : P.maxAccesses = ⊤)
    (hround : ValidBounds round.accessCycleBounds) (hinv : UnboundedInv opts P s)
    (h : additionalIteration opts P s round = .ok s') : UnboundedInv opts P s' := by
  rcases additionalIteration_cases hwcet h with ⟨hinf, _⟩ | ⟨_, hlength, hblocking, hcases⟩
  · exact absurd hinf (ne_infinity_of_nonneg hinv.finite)
  rw [sum_blockingContribution_of_top hwcet ha hround, hlength] at hblocking
  have hkept : s'.wcetBound = s.wcetBound := by
    rcases hcases with ⟨_, hkept⟩ | ⟨hrecalculate, hfinite, _⟩
    · exact hkept
    exfalso
    rw [sum_concAccessesContribution_of_top hwcet ha hround, hlength] at hfinite
    simp only [shouldRecalculate, hleast, Bool.or_eq_true, Bool.and_eq_true, bne_iff_ne, beq_iff_eq,
      decide_eq_true_eq] at hrecalculate
    rcases hrecalculate with ⟨_, hinf⟩ | hgrown
    · have hproduct : opts.numConcurrentCores * P.busCyclesPerAccess = 1 := by
        have hminus : (opts.numConcurrentCores : ℤ) * -P.busCyclesPerAccess = -1 :=
          hblocking.symm.trans hinf
        have hcast : (opts.numConcurrentCores : ℤ) * P.busCyclesPerAccess = 1 := by linarith
        exact_mod_cast hcast
      have hcores : opts.numConcurrentCores = 1 := Nat.eq_one_of_mul_eq_one_right hproduct
      rcases hfinite with hne | hne
      · exact hne hinf
      · rw [hcores] at hne
        exact hne rfl
    · have hcycles : (0 : ℤ) ≤ opts.numConcurrentCores * P.busCyclesPerAccess := by positivity
      rw [hblocking] at hgrown
      rcases hinv.blocking with hzero | hsame
      · rw [hzero] at hgrown
        linarith
      · exact lt_irrefl _ (hsame ▸ hgrown)
  exact ⟨hkept.trans hinv.wcetBound, hkept ▸ hinv.finite, .inr hblocking⟩

end Least

section Run

variable {opts : CoRunnerOptions} {P : PathAnalyses} {s s' : CoRunnerState}
  {rounds rest : List CoRunnerRound}

/-- The rounds are in the direction of the iteration. -/
def Follows (opts : CoRunnerOptions) (round next : CoRunnerRound) : Prop :=
  match opts.fixedPointType with
  | .greatest => AtMost next.accessCycleBounds round.accessCycleBounds
  | .least => AtMost round.accessCycleBounds next.accessCycleBounds

/-- What the first iteration establishes and each further one preserves holds when the
iteration ends. -/
theorem iterate_invariant {I : CoRunnerRound → CoRunnerState → Prop}
    (hstep : ∀ round next s s', next ∈ rounds → Follows opts round next → I round s →
      additionalIteration opts P s next = .ok s' → I next s')
    (hfirst : ∀ round s', rounds.head? = some round →
      additionalIteration opts P s round = .ok s' → I round s')
    (hchain : rounds.IsChain (Follows opts)) (h : iterate opts P s rounds = .ok (s', rest)) :
    ∃ before last, rounds = before ++ last :: rest ∧ I last s' := by
  induction rounds generalizing s with
  | nil => cases h
  | cons round rounds ih =>
    obtain ⟨s₁, hadditional, h⟩ := bind_eq_ok.mp h
    have hround := hfirst round s₁ rfl hadditional
    split at h
    · obtain ⟨before, last, hsplit, hlast⟩ :=
        ih (fun r next t t' hnext => hstep r next t t' (List.mem_cons_of_mem _ hnext))
          (fun next t' hhead hnext => by
            obtain ⟨tail, rfl⟩ := List.head?_eq_some_iff.mp hhead
            exact hstep round next s₁ t' (by simp)
              (List.isChain_cons_cons.mp hchain).1 hround hnext)
          hchain.tail h
      exact ⟨round :: before, last, by rw [hsplit, List.cons_append], hlast⟩
    · cases h
      exact ⟨[], round, rfl, hround⟩

/-- An infinite bound stays infinite. -/
theorem additionalIteration_infinite {round : CoRunnerRound} (hinf : s.wcetBound = infinity)
    (h : additionalIteration opts P s round = .ok s') : s'.wcetBound = infinity := by
  obtain ⟨s₁, hexchange, h⟩ := bind_eq_ok.mp h
  have hinf₁ := (calcAndExchangeAccessCycleBounds_frame hexchange).1.trans hinf
  dsimp only at h
  rw [if_neg (not_not.mpr hinf₁)] at h
  cases h
  exact hinf₁

theorem iterate_infinite (hinf : s.wcetBound = infinity)
    (h : iterate opts P s rounds = .ok (s', rest)) : s'.wcetBound = infinity := by
  induction rounds generalizing s with
  | nil => cases h
  | cons round rounds ih =>
    obtain ⟨s₁, hadditional, h⟩ := bind_eq_ok.mp h
    have hinf₁ := additionalIteration_infinite hinf hadditional
    split at h
    · exact ih hinf₁ h
    · cases h
      exact hinf₁

/-- The constraints of the first path analysis. -/
def initialConstraints (opts : CoRunnerOptions) : BlockingConstraints :=
  match opts.fixedPointType with
  | .greatest => (⊤, ⊤)
  | .least => (0, 0)

theorem firstWcetBound_eq_ok (h : firstWcetBound opts P = .ok s) :
    s.blockingBound = initialBound opts ∧
      s.wcetBound =
        if opts.noWcetBound then infinity else encode (P.maxTime (initialConstraints opts)) := by
  unfold firstWcetBound initialBound initialConstraints at *
  cases hdirection : opts.fixedPointType with
  | greatest =>
    simp only [hdirection] at h
    cases h
    cases hno : opts.noWcetBound with
    | false => simp [calcWcetBound, hno]
    | true => simp [calcWcetBound, hno]
  | least =>
    simp only [hdirection] at h
    cases h
    cases hno : opts.noWcetBound with
    | false => simp [calcWcetBound, hno, infinity, constraintOf]
    | true => simp [calcWcetBound, hno]

theorem doCoRunnerSensitivePathAnalysis_eq_ok {bound : WithTop ℤ}
    (h : doCoRunnerSensitivePathAnalysis opts P rounds = .ok (bound, rest)) :
    ∃ s s', firstWcetBound opts P = .ok s ∧ iterate opts P s rounds = .ok (s', rest) ∧
      bound = decode s'.wcetBound := by
  obtain ⟨_, _, h⟩ := bind_eq_ok.mp h
  obtain ⟨_, _, h⟩ := bind_eq_ok.mp h
  obtain ⟨s, hfirst, h⟩ := bind_eq_ok.mp h
  obtain ⟨⟨s', rest'⟩, hiterate, h⟩ := bind_eq_ok.mp h
  have hbound : bound = decode s'.wcetBound := by
    cases h
    by_cases hinf : s'.wcetBound = infinity
    · rw [if_neg (not_not.mpr hinf), hinf]
      exact decode_neg_one.symm
    · rw [if_pos hinf]
      exact (decode_of_ne hinf).symm
  cases h
  exact ⟨s, s', hfirst, hiterate, hbound⟩

/-- The bound that is returned after these iterations covers the path analysis under the
bounds of the last one, and is infinite if one of the path analyses is. -/
structure SoundBound (opts : CoRunnerOptions) (P : PathAnalyses) (before : List CoRunnerRound)
    (last : CoRunnerRound) (bound : WithTop ℤ) : Prop where
  covers : toInt (P.maxTime (interference P last.accessCycleBounds)) ≤ bound
  infinite_first : P.maxTime (initialConstraints opts) = ⊤ → bound = ⊤
  infinite : ∀ round ∈ before ++ [last],
    P.maxTime (interference P round.accessCycleBounds) = ⊤ → bound = ⊤

theorem SoundBound.of_top {before : List CoRunnerRound} {last : CoRunnerRound} :
    SoundBound opts P before last ⊤ :=
  ⟨le_top, fun _ => rfl, fun _ _ _ => rfl⟩

/-- When the bound that is returned is sound: on the way to the least fixed point an
infinite result after a finite one is lost, and so is the blocking by infinitely many
accesses. -/
def BoundKept (opts : CoRunnerOptions) (P : PathAnalyses) (last : CoRunnerRound) : Prop :=
  opts.noWcetBound = true ∨ opts.fixedPointType = .greatest ∨ P.maxTime (0, 0) = ⊤ ∨
    P.maxTime (interference P last.accessCycleBounds) ≠ ⊤ ∧
      (P.maxAccesses ≠ ⊤ ∨
        P.maxTime (interference P last.accessCycleBounds) ≤ P.maxTime (0, 0))

variable {before : List CoRunnerRound} {last : CoRunnerRound}

theorem split_unique {before' : List CoRunnerRound} {last' : CoRunnerRound}
    (h : before ++ last :: rest = before' ++ last' :: rest) : last = last' := by
  have hsplit : (before ++ [last]) ++ rest = (before' ++ [last']) ++ rest := by
    simpa using h
  have hlast := List.append_cancel_right hsplit
  exact (List.append_inj' hlast rfl).2 |> List.singleton_inj.mp

/-- Towards the greatest fixed point every bound is sound. -/
theorem greatest_sound (hwcet : opts.noWcetBound = false)
    (hgreatest : opts.fixedPointType = .greatest) (hmono : Monotone P.maxTime)
    (hvalid : ∀ round ∈ rounds, ValidBounds round.accessCycleBounds)
    (hchain : rounds.IsChain (Follows opts)) (hfirst : firstWcetBound opts P = .ok s)
    (h : iterate opts P s rounds = .ok (s', rest)) (hsplit : rounds = before ++ last :: rest) :
    SoundBound opts P before last (decode s'.wcetBound) := by
  have hinitial : initialConstraints opts = (⊤, ⊤) := by
    unfold initialConstraints
    rw [hgreatest]
  have hstart := (firstWcetBound_eq_ok hfirst).2
  rw [hwcet, if_neg Bool.false_ne_true, hinitial] at hstart
  have hinfinite : P.maxTime (⊤, ⊤) = ⊤ → decode s'.wcetBound = ⊤ := by
    intro htop
    rw [htop] at hstart
    exact decode_eq_top_iff.mpr (iterate_infinite hstart h)
  obtain ⟨before', last', hsplit', hsound⟩ := iterate_invariant
    (I := fun round s => toInt (P.maxTime (interference P round.accessCycleBounds)) ≤
      decode s.wcetBound)
    (fun round next t t' hnext hfollows hprev hadditional => by
      simp only [Follows, hgreatest] at hfollows
      exact greatest_step hwcet hgreatest hmono (hvalid next hnext)
        (interference_mono hfollows) hprev hadditional)
    (fun round t hhead hadditional => greatest_step hwcet hgreatest hmono
      (hvalid round (List.mem_of_head? hhead))
      (le_top : _ ≤ (⊤ : BlockingConstraints))
      (by
        rw [hstart, decode_encode]
        exact le_rfl)
      hadditional)
    hchain h
  rw [← split_unique (hsplit.symm.trans hsplit')] at hsound
  exact ⟨hsound, hinitial ▸ hinfinite, fun round _ htop =>
    hinfinite (top_le_iff.mp (htop ▸ hmono le_top))⟩

/-- Towards the least fixed point the bounds of each iteration are at most those of the
last one. -/
theorem interference_le_last (hleast : opts.fixedPointType = .least)
    (hchain : rounds.IsChain (Follows opts)) (hsplit : rounds = before ++ last :: rest)
    {round : CoRunnerRound} (hround : round ∈ before ++ [last]) :
    interference P round.accessCycleBounds ≤ interference P last.accessCycleBounds := by
  have hfollows : Follows opts = fun r r' => AtMost r.accessCycleBounds r'.accessCycleBounds := by
    funext r r'
    unfold Follows
    rw [hleast]
  rw [hfollows] at hchain
  have htrans : IsTrans CoRunnerRound
      fun r r' => AtMost r.accessCycleBounds r'.accessCycleBounds :=
    ⟨fun _ _ _ => AtMost.trans⟩
  have hpairwise := List.isChain_iff_pairwise.mp hchain
  rw [hsplit, List.pairwise_append] at hpairwise
  rcases List.mem_append.mp hround with hbefore | hlast
  · exact interference_mono (hpairwise.2.2 round hbefore last List.mem_cons_self)
  · rw [List.mem_singleton.mp hlast]

theorem atMost_replicate_zero {bounds : List ℤ} (hbounds : ValidBounds bounds) :
    AtMost (List.replicate bounds.length 0) bounds := by
  induction bounds with
  | nil => exact .nil
  | cons b bounds ih =>
    refine .cons ?_ (ih fun x hx => hbounds x (List.mem_cons_of_mem _ hx))
    have hb := hbounds b List.mem_cons_self
    rw [decode_of_ne (by decide : (0 : ℤ) ≠ -1)]
    by_cases hinf : b = -1
    · rw [hinf, decode_neg_one]
      exact le_top
    · rw [decode_of_ne hinf]
      exact WithTop.coe_le_coe.mpr (by omega)

/-- Other cores that do not access the bus block nobody. -/
theorem blockingContribution_zero {a : ℕ} (hwcet : opts.noWcetBound = false)
    (ha : P.maxAccesses = WithTop.some a) : blockingContribution opts P 0 = 0 := by
  have hmax := (maxBlockingPerCore_eq (P := P) hwcet ha).1
  unfold blockingContribution
  split_ifs with hlt
  · rfl
  · rw [hmax] at hlt ⊢
    have hnonneg : (0 : ℤ) ≤ ↑(a * P.busCyclesPerAccess) := Int.natCast_nonneg _
    have hle : ¬(0 : ℤ) < ↑(a * P.busCyclesPerAccess) := fun hpos => hlt ⟨by decide, hpos⟩
    omega

theorem interference_replicate_zero {a : ℕ} (n : ℕ) (hwcet : opts.noWcetBound = false)
    (ha : P.maxAccesses = WithTop.some a) :
    interference P (List.replicate n 0) = (0, 0) := by
  have hvalid : ValidBounds (List.replicate n 0) := fun b hb => by
    rw [List.eq_of_mem_replicate hb]
    decide
  have hzero := blockingContribution_zero (P := P) hwcet ha
  rw [interference_eq hwcet ha hvalid, List.map_replicate, List.map_replicate, hzero,
    concAccessesContribution_eq hzero.ge, hzero]
  have hpos := P.busCyclesPerAccess_pos
  have haccesses : accessesOf P 0 = 0 := Int.ediv_eq_zero_of_lt (by omega) (by omega)
  rw [haccesses, List.sum_replicate, nsmul_zero]
  rfl

/-- Before the first iteration the others are taken not to access the bus. -/
theorem leastInv_first {a : ℕ} (n : ℕ) (hwcet : opts.noWcetBound = false)
    (hleast : opts.fixedPointType = .least) (ha : P.maxAccesses = WithTop.some a)
    (hfinite : P.maxTime (0, 0) ≠ ⊤) (hfirst : firstWcetBound opts P = .ok s) :
    LeastInv opts P (List.replicate n 0) s := by
  obtain ⟨hblocking, hstart⟩ := firstWcetBound_eq_ok hfirst
  simp only [hwcet, initialConstraints, initialBound, hleast, if_neg Bool.false_ne_true]
    at hblocking hstart
  refine ⟨hstart ▸ encode_nonneg hfinite, ?_, fun _ => ?_⟩
  · rw [hblocking, List.map_replicate, blockingContribution_zero hwcet ha, List.sum_replicate,
      nsmul_zero]
  · rw [hstart, interference_replicate_zero n hwcet ha]

/-- Towards the least fixed point the bound is exact if the result under the bounds of the
last iteration is finite; otherwise it is finite nevertheless. -/
theorem least_exact {a : ℕ} (hwcet : opts.noWcetBound = false)
    (hleast : opts.fixedPointType = .least) (hmono : Monotone P.maxTime)
    (ha : P.maxAccesses = WithTop.some a) (hfinite : P.maxTime (0, 0) ≠ ⊤)
    (hvalid : ∀ round ∈ rounds, ValidBounds round.accessCycleBounds)
    (hchain : rounds.IsChain (Follows opts)) (hfirst : firstWcetBound opts P = .ok s)
    (h : iterate opts P s rounds = .ok (s', rest)) (hsplit : rounds = before ++ last :: rest) :
    LeastInv opts P last.accessCycleBounds s' := by
  obtain ⟨before', last', hsplit', hinv⟩ := iterate_invariant
    (I := fun round s => round ∈ rounds ∧ LeastInv opts P round.accessCycleBounds s)
    (fun round next t t' hnext hfollows hprev hadditional => by
      simp only [Follows, hleast] at hfollows
      exact ⟨hnext, hprev.2.step hwcet hleast hmono ha (hvalid round hprev.1) (hvalid next hnext)
        hfollows hadditional⟩)
    (fun round t hhead hadditional => by
      have hmem := List.mem_of_head? hhead
      have hzero : ValidBounds (List.replicate round.accessCycleBounds.length 0) := fun b hb => by
        rw [List.eq_of_mem_replicate hb]
        decide
      exact ⟨hmem, (leastInv_first _ hwcet hleast ha hfinite hfirst).step hwcet hleast hmono ha
        hzero (hvalid round hmem) (atMost_replicate_zero (hvalid round hmem)) hadditional⟩)
    hchain h
  rw [split_unique (hsplit.symm.trans hsplit')]
  exact hinv.2

theorem least_unbounded (hwcet : opts.noWcetBound = false)
    (hleast : opts.fixedPointType = .least) (ha : P.maxAccesses = ⊤)
    (hfinite : P.maxTime (0, 0) ≠ ⊤)
    (hvalid : ∀ round ∈ rounds, ValidBounds round.accessCycleBounds)
    (hchain : rounds.IsChain (Follows opts)) (hfirst : firstWcetBound opts P = .ok s)
    (h : iterate opts P s rounds = .ok (s', rest)) : UnboundedInv opts P s' := by
  obtain ⟨hblocking, hstart⟩ := firstWcetBound_eq_ok hfirst
  simp only [hwcet, initialConstraints, initialBound, hleast, if_neg Bool.false_ne_true]
    at hblocking hstart
  have hinv : UnboundedInv opts P s :=
    ⟨hstart, hstart ▸ encode_nonneg hfinite, .inl hblocking⟩
  obtain ⟨_, _, _, hinv'⟩ := iterate_invariant (I := fun _ s => UnboundedInv opts P s)
    (fun _ next _ _ hnext _ hprev hadditional =>
      hprev.step hwcet hleast ha (hvalid next hnext) hadditional)
    (fun round _ hhead hadditional =>
      hinv.step hwcet hleast ha (hvalid round (List.mem_of_head? hhead)) hadditional)
    hchain h
  exact hinv'

/-- The bound that is returned is sound if and only if none is lost. -/
theorem doCoRunnerSensitivePathAnalysis_sound {bound : WithTop ℤ} (hmono : Monotone P.maxTime)
    (hvalid : ∀ round ∈ rounds, ValidBounds round.accessCycleBounds)
    (hchain : rounds.IsChain (Follows opts)) (hsplit : rounds = before ++ last :: rest)
    (h : doCoRunnerSensitivePathAnalysis opts P rounds = .ok (bound, rest)) :
    SoundBound opts P before last bound ↔ BoundKept opts P last := by
  obtain ⟨s, s', hfirst, hiterate, rfl⟩ := doCoRunnerSensitivePathAnalysis_eq_ok h
  have hstart := (firstWcetBound_eq_ok hfirst).2
  cases hwcet : opts.noWcetBound with
  | true =>
    rw [hwcet, if_pos rfl] at hstart
    rw [decode_eq_top_iff.mpr (iterate_infinite hstart hiterate)]
    exact iff_of_true .of_top (.inl hwcet)
  | false =>
  rw [hwcet, if_neg Bool.false_ne_true] at hstart
  cases hdirection : opts.fixedPointType with
  | greatest =>
    exact iff_of_true
      (greatest_sound hwcet hdirection hmono hvalid hchain hfirst hiterate hsplit)
      (.inr (.inl hdirection))
  | least =>
  have hinitial : initialConstraints opts = (0, 0) := by
    unfold initialConstraints
    rw [hdirection]
  by_cases htop : P.maxTime (0, 0) = ⊤
  · rw [hinitial, htop] at hstart
    rw [decode_eq_top_iff.mpr (iterate_infinite hstart hiterate)]
    exact iff_of_true .of_top (.inr (.inr (.inl htop)))
  have hkept : BoundKept opts P last ↔ P.maxTime (interference P last.accessCycleBounds) ≠ ⊤ ∧
      (P.maxAccesses ≠ ⊤ ∨
        P.maxTime (interference P last.accessCycleBounds) ≤ P.maxTime (0, 0)) := by
    simp [BoundKept, hwcet, hdirection, htop]
  -- a finite bound is sound as soon as it covers the last analysis
  have hsound : 0 ≤ s'.wcetBound → (SoundBound opts P before last (decode s'.wcetBound) ↔
      toInt (P.maxTime (interference P last.accessCycleBounds)) ≤ decode s'.wcetBound) := by
    intro hnonneg
    refine ⟨SoundBound.covers, fun hcovers => ⟨hcovers, fun hfirst' => ?_, fun round hround hr => ?_⟩⟩
    · exact absurd (hinitial ▸ hfirst') htop
    · have hle := hmono (interference_le_last (P := P) hdirection hchain hsplit hround)
      rw [hr, top_le_iff] at hle
      exact top_le_iff.mp (by rwa [hle, toInt_top] at hcovers)
  rw [hkept]
  by_cases ha : P.maxAccesses = ⊤
  · have hinv := least_unbounded hwcet hdirection ha htop hvalid hchain hfirst hiterate
    rw [hsound hinv.finite, hinv.wcetBound, decode_encode, toInt_le_toInt]
    exact ⟨fun hle => ⟨ne_top_of_le_ne_top htop hle, .inr hle⟩,
      fun hor => hor.2.resolve_left (not_not.mpr ha)⟩
  · obtain ⟨a, ha'⟩ := WithTop.ne_top_iff_exists.mp ha
    have hinv := least_exact hwcet hdirection hmono ha'.symm htop hvalid hchain hfirst hiterate
      hsplit
    rw [hsound hinv.finite]
    constructor
    · intro hcovers
      refine ⟨fun hlost => ?_, .inl ha⟩
      rw [hlost, toInt_top, top_le_iff, decode_eq_top_iff] at hcovers
      exact ne_infinity_of_nonneg hinv.finite hcovers
    · intro hfinite
      rw [hinv.exact hfinite.1, decode_encode]

/-- A program that takes ten cycles and those that it is blocked, and runs without a bound
if these are more than four. -/
def impatientTime : BlockingConstraints → WithTop ℕ
  | (none, _) => ⊤
  | (some cycles, _) => if cycles ≤ 4 then WithTop.some (10 + cycles.toNat) else ⊤

theorem impatientTime_mono : Monotone impatientTime := by
  rintro ⟨cycles, _⟩ ⟨cycles', _⟩ ⟨hle, _⟩
  cases cycles' with
  | top => exact le_top
  | coe y =>
    cases cycles with
    | top => exact absurd (top_le_iff.mp hle) WithTop.coe_ne_top
    | coe x =>
      have hxy : x ≤ y := WithTop.coe_le_coe.mp hle
      change (if x ≤ 4 then WithTop.some (10 + x.toNat) else ⊤) ≤
        if y ≤ 4 then WithTop.some (10 + y.toNat) else ⊤
      split_ifs
      · exact WithTop.coe_le_coe.mpr (by omega)
      · exact le_top
      · omega
      · exact le_top

def impatientProgram : PathAnalyses where
  maxTime := impatientTime
  maxAccesses := WithTop.some 5
  accessCyclesPer := fun time => time
  busCyclesPerAccess := 2
  busCyclesPerAccess_pos := by decide

def oneConcurrentCore : CoRunnerOptions := ⟨.least, 1, false, false, false, true⟩

def accessing (cycles : ℤ) : CoRunnerRound := ⟨[13], [cycles], false⟩

theorem doCoRunnerSensitivePathAnalysis_sound_patient :
    doCoRunnerSensitivePathAnalysis oneConcurrentCore impatientProgram
        [accessing 3, accessing 3] = .ok (WithTop.some 13, []) ∧
      (SoundBound oneConcurrentCore impatientProgram [accessing 3] (accessing 3)
          (WithTop.some 13) ↔
        BoundKept oneConcurrentCore impatientProgram (accessing 3)) := by
  have hrun : doCoRunnerSensitivePathAnalysis oneConcurrentCore impatientProgram
      [accessing 3, accessing 3] = .ok (WithTop.some 13, []) := by
    rfl
  have hvalid : ∀ round ∈ [accessing 3, accessing 3], ValidBounds round.accessCycleBounds := by
    simp [ValidBounds, accessing]
  have hchain : [accessing 3, accessing 3].IsChain (Follows oneConcurrentCore) :=
    List.isChain_cons_cons.mpr ⟨AtMost.refl _, List.isChain_singleton _⟩
  exact ⟨hrun, doCoRunnerSensitivePathAnalysis_sound impatientTime_mono hvalid hchain rfl hrun⟩

/-- The second analysis has no finite result, which is taken for a bound that went down:
the one before is returned. -/
theorem doCoRunnerSensitivePathAnalysis_impatient :
    Monotone impatientProgram.maxTime ∧
    (∀ round ∈ [accessing 2, accessing 8], ValidBounds round.accessCycleBounds) ∧
    [accessing 2, accessing 8].IsChain (Follows oneConcurrentCore) ∧
    doCoRunnerSensitivePathAnalysis oneConcurrentCore impatientProgram
        [accessing 2, accessing 8] = .ok (WithTop.some 12, []) ∧
      ¬SoundBound oneConcurrentCore impatientProgram [accessing 2] (accessing 8)
        (WithTop.some 12) := by
  refine ⟨impatientTime_mono, by simp [ValidBounds, accessing], ?_, by rfl, fun hsound => ?_⟩
  · simp only [List.isChain_cons_cons, List.isChain_singleton, and_true]
    exact .cons (by decide) .nil
  · exact WithTop.coe_ne_top (hsound.infinite (accessing 8) (by simp) (by rfl))

end Run

end CoRunner

end Llvmta
