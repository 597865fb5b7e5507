import Llvmta.Library.CompletionTimes
import Llvmta.Library.Successors
import Llvmta.Memory.CacheTraits

/-!
# Cycling memories

A memory serves one access at a time, cycle by cycle. A cycle may have several
outcomes. Instead of cycling, a busy memory can be fast-forwarded to the last
cycle of its current phase; how many cycles were left out is counted by intervals.
-/

namespace Llvmta

open Checked

/-- A counter of which bounds are known, both 32 bits wide. -/
structure IntervalCounter where
  lb : ℕ
  ub : ℕ
  deriving DecidableEq, Repr

namespace IntervalCounter

def ofValue (value : ℕ) : IntervalCounter := ⟨value, value⟩

def add (c c' : IntervalCounter) : IntervalCounter :=
  ⟨toUnsigned (c.lb + c'.lb), toUnsigned (c.ub + c'.ub)⟩

def join (c c' : IntervalCounter) : IntervalCounter := ⟨min c.lb c'.lb, max c.ub c'.ub⟩

/-- The values the counter may have. -/
def values (c : IntervalCounter) : Set ℕ := Set.Icc c.lb c.ub

/-- A counter with ordered bounds that goes up without an overflow. -/
theorem mem_values_add {c c' : IntervalCounter} (hc : c.lb ≤ c.ub) (hc' : c'.lb ≤ c'.ub)
    (h : c.ub + c'.ub < 2 ^ 32) {v : ℕ} :
    v ∈ (c.add c').values ↔ ∃ x ∈ c.values, ∃ y ∈ c'.values, v = x + y := by
  simp only [values, Set.mem_Icc, add]
  rw [toUnsigned_of_lt (by omega), toUnsigned_of_lt h]
  constructor
  · rintro ⟨hlb, hub⟩
    exact ⟨min c.ub (v - c'.lb), by omega, v - min c.ub (v - c'.lb), by omega, by omega⟩
  · rintro ⟨x, hx, y, hy, rfl⟩
    omega

theorem add_ordered {c c' : IntervalCounter} (hc : c.lb ≤ c.ub) (hc' : c'.lb ≤ c'.ub)
    (h : c.ub + c'.ub < 2 ^ 32) : (c.add c').lb ≤ (c.add c').ub := by
  simp only [add]
  rw [toUnsigned_of_lt (by omega), toUnsigned_of_lt h]
  omega

end IntervalCounter

/-- The interface of memories. -/
structure AbstractCyclingMemory (μ : Type) where
  new : μ
  isBusy : μ → Bool
  cycle : μ → Except Fault (List μ)
  /-- an access with its type and its width in words -/
  announceAccess : μ → AbstractAddress → AccessType → ℕ → Except Fault (List μ)
  fastForward : μ → Except Fault (List μ)
  shouldPipelineStall : μ → Bool
  isJoinable : μ → μ → Bool
  join : μ → μ → Except Fault μ
  resetLocalMetrics : μ → μ

namespace AbstractCyclingMemory

variable {μ : Type} (M : AbstractCyclingMemory μ)

/-- The memories that are reached from a new one. A fast-forward is permitted under a
condition and is followed by a cycle. -/
inductive Reachable (permitted : μ → Prop) : μ → Prop
  | new : Reachable permitted M.new
  | announceAccess {m m' : μ} {addr : AbstractAddress} {t : AccessType} {numWords : ℕ}
    (h : Reachable permitted m) (hm' : Leads (M.announceAccess · addr t numWords) m m') :
    Reachable permitted m'
  | cycle {m m' : μ} (h : Reachable permitted m) (hm' : Leads M.cycle m m') :
    Reachable permitted m'
  | fastForward {m m' m'' : μ} (h : Reachable permitted m) (hm : permitted m)
    (hm' : Leads M.fastForward m m') (hm'' : Leads M.cycle m' m'') : Reachable permitted m''

/-- The possible completion times of the pending access when the memory is cycled until
it is idle, with the cycles that were left out before. -/
def completionTimes (forwarded : μ → Set ℕ) (m : μ) : Set ℕ :=
  Timed.completionTimes (M.isBusy · = true) (Leads M.cycle) forwarded m

/-- After a fast-forward the access can take just as long as before. -/
def ForwardsExactly (forwarded : μ → Set ℕ) (m : μ) : Prop :=
  ∀ t, (∃ m', Leads M.fastForward m m' ∧ t ∈ M.completionTimes forwarded m') ↔
    t ∈ M.completionTimes forwarded m

end AbstractCyclingMemory

end Llvmta
