import Mathlib.Data.Set.Basic
import Mathlib.Tactic

/-!
# Times after which a system becomes idle

A system takes nondeterministic steps as long as it is busy. Its states may stand
for time that has passed without being stepped through; `elapsed` says how much
that can be. The completion times of a state are the numbers of steps until the
system is idle, together with what its last state has counted. A wrapper that
watches a system and delays its end adds the delays to the completion times.
-/

namespace Timed

variable {σ ω : Type*}

section Basics

variable (busy : σ → Prop) (Step : σ → σ → Prop) (elapsed : σ → Set ℕ)

/-- So many steps lead from a state to the first idle one. -/
inductive FinishesIn : ℕ → σ → σ → Prop
  | idle {s : σ} (h : ¬ busy s) : FinishesIn 0 s s
  | step {n : ℕ} {s s' t : σ} (hs : busy s) (h : Step s s') (hrest : FinishesIn n s' t) :
    FinishesIn (n + 1) s t

def completionTimes (s : σ) : Set ℕ :=
  {t | ∃ n s', FinishesIn busy Step n s s' ∧ ∃ v ∈ elapsed s', t = n + v}

variable {busy Step elapsed} {s : σ} {t : ℕ}

theorem mem_completionTimes_of_idle (h : ¬ busy s) :
    t ∈ completionTimes busy Step elapsed s ↔ t ∈ elapsed s := by
  constructor
  · rintro ⟨n, s', hfinish, v, hv, rfl⟩
    cases hfinish with
    | idle => rwa [Nat.zero_add]
    | step hs => exact absurd hs h
  · intro ht
    exact ⟨0, s, .idle h, t, ht, (Nat.zero_add t).symm⟩

theorem mem_completionTimes_of_busy (h : busy s) :
    t ∈ completionTimes busy Step elapsed s ↔
      ∃ s', Step s s' ∧ ∃ t' ∈ completionTimes busy Step elapsed s', t = t' + 1 := by
  constructor
  · rintro ⟨n, last, hfinish, v, hv, rfl⟩
    cases hfinish with
    | idle hidle => exact absurd h hidle
    | @step n _ s' _ _ hstep hrest =>
      exact ⟨s', hstep, n + v, ⟨n, last, hrest, v, hv, rfl⟩, by omega⟩
  · rintro ⟨s', hstep, _, ⟨n, last, hrest, v, hv, rfl⟩, rfl⟩
    exact ⟨n + 1, last, .step h hstep hrest, v, hv, by omega⟩

/-- Busy states that lead to states of their kind only never finish. -/
theorem not_mem_completionTimes_of_stuck (stuck : σ → Prop) (hbusy : ∀ s, stuck s → busy s)
    (hclosed : ∀ s s', stuck s → Step s s' → stuck s') (h : stuck s) :
    t ∉ completionTimes busy Step elapsed s := by
  induction t generalizing s with
  | zero =>
    intro ht
    obtain ⟨_, _, _, _, hzero⟩ := (mem_completionTimes_of_busy (hbusy s h)).mp ht
    omega
  | succ t ih =>
    intro ht
    obtain ⟨s', hstep, t', ht', hsucc⟩ := (mem_completionTimes_of_busy (hbusy s h)).mp ht
    cases Nat.succ.inj hsucc
    exact ih (hclosed s s' h hstep) ht'

end Basics

section Wrappers

variable {busy : σ → Prop} {Step : σ → σ → Prop} {elapsed : σ → Set ℕ}
  {busyWrapped : ω → Prop} {StepWrapped : ω → ω → Prop} {elapsedWrapped : ω → Set ℕ}
  (wrap : σ → ω) (Ends : σ → ω → Prop) (delays : Set ℕ) (good : σ → Prop) {s : σ} {t : ℕ}

/-- A wrapper follows the system while it is busy; when it gets idle, the wrapper is in
a state from where it takes one of the delays longer. -/
theorem mem_completionTimes_wrap (hbusy : ∀ s, busy s → busyWrapped (wrap s))
    (hgood : ∀ s s', good s → Step s s' → good s')
    (hstep : ∀ s, good s → busy s → ∀ w, StepWrapped (wrap s) w ↔
      ∃ s', Step s s' ∧ (busy s' ∧ w = wrap s' ∨ ¬ busy s' ∧ Ends s' w))
    (hends : ∀ s s', good s → Step s s' → ¬ busy s' → ∀ t,
      (∃ w, Ends s' w ∧ t ∈ completionTimes busyWrapped StepWrapped elapsedWrapped w) ↔
        ∃ v ∈ elapsed s', ∃ d ∈ delays, t = v + d) (hsgood : good s) (hs : busy s) :
    t ∈ completionTimes busyWrapped StepWrapped elapsedWrapped (wrap s) ↔
      ∃ y ∈ completionTimes busy Step elapsed s, ∃ d ∈ delays, t = y + d := by
  induction t generalizing s with
  | zero =>
    constructor
    · intro ht
      obtain ⟨_, _, _, _, hzero⟩ := (mem_completionTimes_of_busy (hbusy s hs)).mp ht
      omega
    · rintro ⟨y, hy, d, _, hzero⟩
      obtain ⟨_, _, _, _, rfl⟩ := (mem_completionTimes_of_busy hs).mp hy
      omega
  | succ t ih =>
    rw [mem_completionTimes_of_busy (hbusy s hs)]
    constructor
    · rintro ⟨w, hw, t', ht', hsucc⟩
      cases Nat.succ.inj hsucc
      obtain ⟨s', hs', ⟨hbusy', rfl⟩ | ⟨hidle, hend⟩⟩ := (hstep s hsgood hs w).mp hw
      · obtain ⟨y, hy, d, hd, rfl⟩ := (ih (hgood s s' hsgood hs') hbusy').mp ht'
        have hy' := (mem_completionTimes_of_busy hs).mpr ⟨s', hs', y, hy, rfl⟩
        exact ⟨y + 1, hy', d, hd, by omega⟩
      · obtain ⟨v, hv, d, hd, rfl⟩ := (hends s s' hsgood hs' hidle t).mp ⟨w, hend, ht'⟩
        have hv' : v ∈ completionTimes busy Step elapsed s' :=
          (mem_completionTimes_of_idle hidle).mpr hv
        exact ⟨v + 1, (mem_completionTimes_of_busy hs).mpr ⟨s', hs', v, hv', rfl⟩, d, hd,
          by omega⟩
    · rintro ⟨y, hy, d, hd, hsum⟩
      obtain ⟨s', hs', y', hy', rfl⟩ := (mem_completionTimes_of_busy hs).mp hy
      have ht : t = y' + d := by omega
      by_cases hbusy' : busy s'
      · exact ⟨wrap s', (hstep s hsgood hs _).mpr ⟨s', hs', .inl ⟨hbusy', rfl⟩⟩, t,
          (ih (hgood s s' hsgood hs') hbusy').mpr ⟨y', hy', d, hd, ht⟩, rfl⟩
      · have hv := (mem_completionTimes_of_idle hbusy').mp hy'
        obtain ⟨w, hend, hw⟩ := (hends s s' hsgood hs' hbusy' t).mpr ⟨y', hv, d, hd, ht⟩
        exact ⟨w, (hstep s hsgood hs w).mpr ⟨s', hs', .inr ⟨hbusy', hend⟩⟩, t, hw, rfl⟩

end Wrappers

end Timed
