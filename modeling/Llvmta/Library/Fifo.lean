import Mathlib.Data.List.Basic
import Mathlib.Tactic

/-!
# Queues that are flushed

What enters a queue leaves it in order, except what is dropped by flushes, each of which is
caused by the last element that has left. `Accounts` says so of all that has entered and
left since the queue was empty, by the positions at which the elements entered.
-/

namespace Fifo

variable {α : Type*} {causes : α → Prop} {entered left pending e l p : List α} {flushed : Bool}
  {positions : List ℕ}

/-- What enters in a round is behind what is pending; what leaves was in front; a flush drops
the rest. -/
structure Round (causes : α → Prop) (pending e l : List α) (flushed : Bool) (p : List α) :
    Prop where
  kept : flushed = false → pending ++ e = l ++ p
  dropped : flushed = true → p = [] ∧ ∃ front cause rest, l = front ++ [cause] ∧
    causes cause ∧ pending ++ e = l ++ rest

/-- The elements that left are those at the positions, in the order in which they entered;
the pending ones are the last ones; each other one was dropped by a flush, which is caused by
the nearest one in front of it that left. -/
structure Ordered (causes : α → Prop) (entered : List α) (positions : List ℕ)
    (left pending : List α) (start : ℕ) : Prop where
  increasing : positions.Pairwise (· < ·)
  left_eq : left.map some = positions.map (entered[·]?)
  start_le : start ≤ entered.length
  pending_eq : pending = entered.drop start
  lt_start : ∀ i ∈ positions, i < start
  dropped : ∀ i < start, i ∉ positions → ∃ c ∈ positions, c < i ∧
    (∀ j ∈ positions, j ≤ c ∨ i < j) ∧ ∃ a, entered[c]? = some a ∧ causes a

def Accounts (causes : α → Prop) (entered left pending : List α) : Prop :=
  ∃ positions start, Ordered causes entered positions left pending start

theorem accounts_nil : Accounts causes ([] : List α) [] [] :=
  ⟨[], 0, by simp, rfl, le_rfl, rfl, by simp, by simp⟩

/-- What leaves in a round is at the positions behind the start of what was pending. -/
theorem Ordered.left_append {start : ℕ} (h : Ordered causes entered positions left pending start)
    (heq : pending ++ e = l ++ p) :
    (positions ++ List.range' start l.length).Pairwise (· < ·) ∧
      (left ++ l).map some =
        (positions ++ List.range' start l.length).map ((entered ++ e)[·]?) ∧
      start + l.length ≤ (entered ++ e).length ∧ p = (entered ++ e).drop (start + l.length) := by
  have hdrop : (entered ++ e).drop start = l ++ p := by
    rw [List.drop_append_of_le_length h.start_le, ← h.pending_eq, heq]
  have hlength : (entered ++ e).length = start + l.length + p.length := by
    have hsum : ((entered ++ e).drop start).length = l.length + p.length := by
      rw [hdrop, List.length_append]
    rw [List.length_drop] at hsum
    have hle : start ≤ (entered ++ e).length := by
      rw [List.length_append]
      exact h.start_le.trans (Nat.le_add_right _ _)
    omega
  refine ⟨?_, ?_, by omega, ?_⟩
  · refine List.pairwise_append.mpr ⟨h.increasing, List.pairwise_lt_range', ?_⟩
    intro i hi j hj
    exact (h.lt_start i hi).trans_le (List.mem_range'_1.mp hj).1
  · rw [List.map_append, List.map_append, h.left_eq]
    congr 1
    · apply List.map_congr_left
      intro i hi
      rw [List.getElem?_append_left ((h.lt_start i hi).trans_le h.start_le)]
    · apply List.ext_getElem?
      intro k
      rw [List.getElem?_map, List.getElem?_map]
      by_cases hk : k < l.length
      · have hget : (entered ++ e)[start + k]? = l[k]? := by
          rw [← List.getElem?_drop, hdrop, List.getElem?_append_left hk]
        rw [List.getElem?_range' hk, List.getElem?_eq_getElem hk, Option.map_some, Option.map_some]
        simp [hget, List.getElem?_eq_getElem hk]
      · rw [List.getElem?_eq_none (by simpa using hk), List.getElem?_eq_none (by simpa using hk)]
        rfl
  · rw [← List.drop_drop, hdrop, List.drop_left]

theorem Accounts.step (h : Accounts causes entered left pending)
    (hround : Round causes pending e l flushed p) :
    Accounts causes (entered ++ e) (left ++ l) p := by
  obtain ⟨positions, start, h⟩ := h
  have hold : ∀ i < start, i ∉ positions ++ List.range' start l.length →
      ∃ c ∈ positions ++ List.range' start l.length, c < i ∧
        (∀ j ∈ positions ++ List.range' start l.length, j ≤ c ∨ i < j) ∧
        ∃ a, (entered ++ e)[c]? = some a ∧ causes a := by
    intro i hi hnot
    obtain ⟨c, hc, hci, hbetween, a, ha, hcause⟩ :=
      h.dropped i hi fun hmem => hnot (List.mem_append_left _ hmem)
    refine ⟨c, List.mem_append_left _ hc, hci, ?_, a, ?_, hcause⟩
    · intro j hj
      rcases List.mem_append.mp hj with hj | hj
      · exact hbetween j hj
      · exact .inr (hi.trans_le (List.mem_range'_1.mp hj).1)
    · rw [List.getElem?_append_left (hci.trans (hi.trans_le h.start_le)), ha]
  cases flushed with
  | false =>
    obtain ⟨hincreasing, hleft, hle, hp⟩ := h.left_append (hround.kept rfl)
    refine ⟨_, start + l.length, hincreasing, hleft, hle, hp, ?_, ?_⟩
    · intro i hi
      rcases List.mem_append.mp hi with hi | hi
      · exact (h.lt_start i hi).trans_le (Nat.le_add_right _ _)
      · exact (List.mem_range'_1.mp hi).2
    · intro i hi hnot
      by_cases hstart : i < start
      · exact hold i hstart hnot
      · have hmem : i ∈ List.range' start l.length := List.mem_range'_1.mpr ⟨by omega, hi⟩
        exact absurd (List.mem_append_right _ hmem) hnot
  | true =>
    obtain ⟨rfl, front, cause, rest, rfl, hcause, heq⟩ := hround.dropped rfl
    obtain ⟨hincreasing, hleft, hle, hrest⟩ := h.left_append heq
    have hlast : start + front.length ∈
        positions ++ List.range' start (front ++ [cause]).length := by
      apply List.mem_append_right
      rw [List.mem_range'_1, List.length_append, List.length_singleton]
      omega
    have hget : (entered ++ e)[start + front.length]? = some cause := by
      rw [← List.getElem?_drop, List.drop_append_of_le_length h.start_le, ← h.pending_eq, heq]
      simp
    refine ⟨_, (entered ++ e).length, hincreasing, hleft, le_rfl, by simp, ?_, ?_⟩
    · intro i hi
      rcases List.mem_append.mp hi with hi | hi
      · exact ((h.lt_start i hi).trans_le (Nat.le_add_right _ _)).trans_le hle
      · exact (List.mem_range'_1.mp hi).2.trans_le hle
    · intro i _ hnot
      by_cases hstart : i < start
      · exact hold i hstart hnot
      · have hbehind : start + front.length < i := by
          by_contra hle
          apply hnot
          apply List.mem_append_right
          rw [List.mem_range'_1, List.length_append, List.length_singleton]
          omega
        refine ⟨start + front.length, hlast, hbehind, ?_, cause, hget, hcause⟩
        intro j hj
        left
        rcases List.mem_append.mp hj with hj | hj
        · exact (h.lt_start j hj).le.trans (Nat.le_add_right _ _)
        · have hlt := (List.mem_range'_1.mp hj).2
          rw [List.length_append, List.length_singleton] at hlt
          omega

end Fifo
