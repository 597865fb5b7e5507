import Llvmta.Library.SpacedDemand

/-!
# The arrival curve of a co-runner

At the granularity of programs, the number of cycles in which a co-running core can
access the bus during an interval is bounded from the accesses of one run of its
program and from the minimal distance between two starts of it.
-/

namespace Llvmta

open SpacedDemand

/-- The value that stands for an unbounded number of accesses. -/
def infinity : ℤ := -1

/-- What the arrival curve of a core is computed from. -/
structure ArrivalCurve where
  /-- the maximal number of accesses in a run of the program -/
  accessBound : ℤ
  UBbusCyclesPerAccess : ℤ
  /-- the minimal distance between two starts of the program -/
  effectivePeriod : ℤ
  deriving DecidableEq, Repr

namespace ArrivalCurve

variable (curve : ArrivalCurve)

/-- The maximal amount of access cycles per program run. -/
def UBAccCycPerProgRun : ℤ := curve.accessBound * curve.UBbusCyclesPerAccess

/-- The maximal number of access cycles in an interval, by the granularity of programs. -/
def maxAccessCyclesPerInner (time : ℤ) : ℤ :=
  if time = 0 then
    0
  else if curve.accessBound = infinity ∨ curve.effectivePeriod = 0 then
    time
  else
    let exceed_time := time - curve.UBAccCycPerProgRun
    let exceed_time := if exceed_time < 0 then 0 else exceed_time
    let d := exceed_time.tdiv curve.effectivePeriod
    let m := exceed_time.tmod curve.effectivePeriod
    let bound1 := curve.UBAccCycPerProgRun + d * curve.UBAccCycPerProgRun
    let bound1 := if m ≠ 0 then bound1 + curve.UBAccCycPerProgRun else bound1
    let bound2 := curve.UBAccCycPerProgRun + d * curve.UBAccCycPerProgRun
    let bound2 := bound2 + m
    let bound3 := time
    let accessCycles := if bound1 < bound2 then bound1 else bound2
    if bound3 < accessCycles then bound3 else accessCycles

section Bounds

variable {P C time : ℤ}

/-- The whole periods that fit behind the first run, and what they admit. -/
def admitted (P C exceed : ℤ) : ℤ := C + exceed / P * C + min C (exceed % P)

/-- The smaller one of the first two bounds. -/
theorem min_bounds_eq {x : ℤ} (hP : 0 < P) (hC : 0 ≤ C) :
    (if (if x % P ≠ 0 then C + x / P * C + C else C + x / P * C) <
        C + x / P * C + x % P then
      (if x % P ≠ 0 then C + x / P * C + C else C + x / P * C)
    else C + x / P * C + x % P) = admitted P C x := by
  have hm := Int.emod_nonneg x hP.ne'
  unfold admitted
  generalize x / P * C = a
  generalize x % P = m at *
  split_ifs <;> omega

theorem admitted_mono {exceed exceed' : ℤ} (hP : 0 < P) (hC : 0 ≤ C)
    (hle : exceed ≤ exceed') : admitted P C exceed ≤ admitted P C exceed' := by
  have hd : exceed / P ≤ exceed' / P := Int.ediv_le_ediv hP hle
  have hm' := Int.emod_nonneg exceed' hP.ne'
  unfold admitted
  rcases hd.lt_or_eq with hlt | heq
  · -- a whole further period admits a further run
    have hrun : exceed / P * C + C ≤ exceed' / P * C := by
      have := Int.mul_le_mul_of_nonneg_right (Int.add_one_le_iff.mpr hlt) hC
      linarith
    have hnonneg : 0 ≤ min C (exceed' % P) := le_min hC hm'
    have := min_le_left C (exceed % P)
    linarith
  · have hm : exceed % P ≤ exceed' % P := by
      rw [Int.emod_def, Int.emod_def, heq]
      omega
    rw [heq]
    have := min_le_min_left C hm
    linarith

/-- What is bounded by the demands of the runs and by the cycles between their starts is
admitted. -/
theorem le_admitted {n : ℕ} {t : ℤ} (hP : 0 < P) (hC : 0 ≤ C) (htime : t ≤ time)
    (hdemand : t ≤ (n + 1) * C)
    (hspaced : 0 < n → t ≤ time - (n - 1) * (P - C)) :
    t ≤ admitted P C (max 0 (time - C)) := by
  obtain ⟨exceed, hexceed⟩ : ∃ e, e = max 0 (time - C) := ⟨_, rfl⟩
  have hfit : time ≤ C + exceed := by omega
  have hnonneg : 0 ≤ exceed := by omega
  rw [← hexceed]
  have hdm := Int.mul_ediv_add_emod exceed P
  have hm := Int.emod_nonneg exceed hP.ne'
  have hmP := Int.emod_lt_of_pos exceed hP
  have hd : 0 ≤ exceed / P := Int.ediv_nonneg hnonneg hP.le
  unfold admitted
  generalize exceed / P = d at *
  generalize exceed % P = m at *
  rcases le_total P C with hle | hge
  · -- one run fills its period
    have : P * d ≤ d * C := by nlinarith
    have : t ≤ C + d * C + m := by linarith
    have : t ≤ C + d * C + C := by linarith
    rcases min_choice C m with h | h <;> rw [h] <;> assumption
  · have hslack : 0 ≤ P - C := sub_nonneg.mpr hge
    have hbound2 : t ≤ C + d * C + m := by
      rcases le_or_gt (n : ℤ) d with hfew | hmany
      · nlinarith
      · have := hspaced (by omega)
        nlinarith
    have hbound1 : t ≤ C + d * C + C := by
      rcases le_or_gt (n : ℤ) (d + 1) with hfew | hmany
      · nlinarith
      · have := hspaced (by omega)
        nlinarith
    rcases min_choice C m with h | h <;> rw [h] <;> assumption

end Bounds

theorem maxAccessCyclesPerInner_eq {time : ℤ} (hbound : 0 ≤ curve.accessBound)
    (hbus : 0 ≤ curve.UBbusCyclesPerAccess) (hperiod : 0 < curve.effectivePeriod)
    (htime : 0 ≤ time) :
    curve.maxAccessCyclesPerInner time =
      min time (admitted curve.effectivePeriod curve.UBAccCycPerProgRun
        (max 0 (time - curve.UBAccCycPerProgRun))) := by
  have hC : 0 ≤ curve.UBAccCycPerProgRun := mul_nonneg hbound hbus
  have hexceed : (if time - curve.UBAccCycPerProgRun < 0 then 0
      else time - curve.UBAccCycPerProgRun) = max 0 (time - curve.UBAccCycPerProgRun) := by
    split_ifs <;> omega
  have hmin := min_bounds_eq (x := max 0 (time - curve.UBAccCycPerProgRun)) hperiod hC
  unfold maxAccessCyclesPerInner
  split_ifs with hzero hinfinite
  · have hadmitted : 0 ≤ admitted curve.effectivePeriod curve.UBAccCycPerProgRun
        (max 0 (time - curve.UBAccCycPerProgRun)) :=
      le_admitted (n := 0) hperiod hC htime (by simpa using hC) (by simp)
    omega
  · rcases hinfinite with h | h
    · rw [h] at hbound
      exact absurd hbound (by decide)
    · omega
  · simp only [hexceed, Int.tdiv_eq_ediv_of_nonneg (le_max_left 0 _),
      Int.tmod_eq_emod_of_nonneg (le_max_left 0 _), hmin]
    rw [min_def]
    split_ifs <;> omega

theorem maxAccessCyclesPerInner_mono {time time' : ℤ} (hbound : 0 ≤ curve.accessBound)
    (hbus : 0 ≤ curve.UBbusCyclesPerAccess) (hperiod : 0 < curve.effectivePeriod)
    (htime : 0 ≤ time) (hle : time ≤ time') :
    curve.maxAccessCyclesPerInner time ≤ curve.maxAccessCyclesPerInner time' := by
  rw [curve.maxAccessCyclesPerInner_eq hbound hbus hperiod htime,
    curve.maxAccessCyclesPerInner_eq hbound hbus hperiod (htime.trans hle)]
  apply min_le_min hle
  apply admitted_mono hperiod (mul_nonneg hbound hbus)
  exact max_le_max_left 0 (sub_le_sub_right hle _)

/-- No window sees more busy cycles than the curve admits. -/
theorem card_busyIn_le_maxAccessCyclesPerInner {ι : Type*} [LinearOrder ι]
    (hbound : 0 ≤ curve.accessBound) (hbus : 0 ≤ curve.UBbusCyclesPerAccess)
    (hperiod : 0 < curve.effectivePeriod) {C : ℤ} (hC : C = curve.UBAccCycPerProgRun)
    (jobs : Jobs ι curve.effectivePeriod C) (w : ℤ) {time : ℤ} (htime : 0 ≤ time) :
    ((jobs.busyIn w time).card : ℤ) ≤ curve.maxAccessCyclesPerInner time := by
  have hnonneg : 0 ≤ C := hC ▸ mul_nonneg hbound hbus
  have hwindow := jobs.card_busyIn_le (w := w) htime
  obtain ⟨later, hdemand, hspaced⟩ := jobs.exists_later_jobs w time hnonneg
  rw [curve.maxAccessCyclesPerInner_eq hbound hbus hperiod htime, ← hC]
  exact le_min hwindow (le_admitted hperiod hnonneg hwindow hdemand hspaced)

/-- The arrival curve bounds the access cycles of every window, and grows with it. -/
theorem arrivalCurve_sound_mono (accessBound UBbusCyclesPerAccess P : ℕ) (hP : 1 ≤ P) :
    (∀ (ι : Type) [LinearOrder ι] (jobs : Jobs ι P (accessBound * UBbusCyclesPerAccess : ℕ))
        (w : ℤ) (time : ℕ), ((jobs.busyIn w time).card : ℤ) ≤
          maxAccessCyclesPerInner ⟨accessBound, UBbusCyclesPerAccess, P⟩ time) ∧
      ∀ time time' : ℕ, time ≤ time' →
        maxAccessCyclesPerInner ⟨accessBound, UBbusCyclesPerAccess, P⟩ time ≤
          maxAccessCyclesPerInner ⟨accessBound, UBbusCyclesPerAccess, P⟩ time' := by
  have hperiod : (0 : ℤ) < P := by exact_mod_cast hP
  constructor
  · intro ι _ jobs w time
    have hruns : ((accessBound * UBbusCyclesPerAccess : ℕ) : ℤ) =
        UBAccCycPerProgRun ⟨accessBound, UBbusCyclesPerAccess, P⟩ := Nat.cast_mul _ _
    exact card_busyIn_le_maxAccessCyclesPerInner ⟨accessBound, UBbusCyclesPerAccess, P⟩
      (Int.natCast_nonneg _) (Int.natCast_nonneg _) hperiod hruns jobs w (Int.natCast_nonneg _)
  · intro time time' hle
    exact maxAccessCyclesPerInner_mono ⟨accessBound, UBbusCyclesPerAccess, P⟩
      (Int.natCast_nonneg _) (Int.natCast_nonneg _) hperiod (Int.natCast_nonneg _)
      (by exact_mod_cast hle)

/-- Two accesses of one cycle at the start of every fifth cycle. -/
def everyFifthCycle : Jobs ℕ (5 : ℕ) (2 * 1 : ℕ) where
  start i := 5 * i
  finish i := 5 * i + 2
  busy i := {5 * (i : ℤ), 5 * (i : ℤ) + 1}
  finish_le_start := by intro i j h; omega
  period_le := by intro i j h; omega
  start_le := by intro i c h; simp at h; omega
  lt_finish := by intro i c h; simp at h; omega
  card_le := by intro i; exact_mod_cast Finset.card_le_two

theorem arrivalCurve_everyFifthCycle :
    ((everyFifthCycle.busyIn 0 12).card : ℤ) ≤ maxAccessCyclesPerInner ⟨2, 1, 5⟩ 12 ∧
      maxAccessCyclesPerInner ⟨2, 1, 5⟩ 11 ≤ maxAccessCyclesPerInner ⟨2, 1, 5⟩ 12 :=
  have h := arrivalCurve_sound_mono 2 1 5 (by decide)
  ⟨h.1 ℕ everyFifthCycle 0 12, h.2 11 12 (by decide)⟩

end ArrivalCurve

end Llvmta
