import Mathlib.Data.List.Basic
import Mathlib.Data.Vector.Basic
import Mathlib.Tactic

/-!
# Ring buffers

A list of elements in consecutive slots of a vector, from the head on and around its end.
`Holds` says so of a vector, a head and a tail; the operations on the slots are what the
operations of a queue do to the list.
-/

namespace RingBuffer

variable {α : Type*} {n : ℕ}

/-- The slot at a distance from the head. -/
def slot (head : Fin n) (k : ℕ) : Fin n :=
  ⟨(head.val + k) % n, Nat.mod_lt _ (Nat.zero_lt_of_lt head.isLt)⟩

/-- `++i; if (i == n) i = 0;` -/
def next (i : Fin n) : Fin n :=
  if h : i.val + 1 < n then ⟨i.val + 1, h⟩ else ⟨0, Nat.zero_lt_of_lt i.isLt⟩

/-- The distance of a slot from the head. -/
def offset (head i : Fin n) : ℕ :=
  if head.val ≤ i.val then i.val - head.val else n - head.val + i.val

/-- The elements from a slot on and around the end. -/
def toList (slots : Vector (Option α) n) (head : Fin n) : List α :=
  (List.range n).filterMap fun k => slots.get (slot head k)

/-- The slots hold the elements of the list and nothing else. -/
structure Holds (slots : Vector (Option α) n) (head tail : Fin n) (l : List α) : Prop where
  length_le : l.length ≤ n
  tail_eq : tail = slot head l.length
  get_slot : ∀ k < n, slots.get (slot head k) = l[k]?

variable {slots : Vector (Option α) n} {head tail i : Fin n} {l : List α} {a b : α} {j k : ℕ}

@[simp] theorem slot_zero (head : Fin n) : slot head 0 = head := by
  apply Fin.ext
  simp [slot, Nat.mod_eq_of_lt head.isLt]

theorem next_eq_slot (i : Fin n) : next i = slot i 1 := by
  apply Fin.ext
  unfold next slot
  split_ifs with h
  · exact (Nat.mod_eq_of_lt h).symm
  · have heq : i.val + 1 = n := by omega
    simp [heq]

theorem slot_slot (head : Fin n) (j k : ℕ) : slot (slot head j) k = slot head (j + k) := by
  apply Fin.ext
  simp [slot, Nat.add_assoc]

theorem slot_full (head : Fin n) : slot head n = head := by
  apply Fin.ext
  simp [slot, Nat.mod_eq_of_lt head.isLt]

theorem slot_injective (hj : j < n) (hk : k < n) (h : slot head j = slot head k) : j = k := by
  have hmod : (head.val + j) % n = (head.val + k) % n := congrArg Fin.val h
  have heq : j % n = k % n := Nat.ModEq.add_left_cancel' head.val hmod
  rwa [Nat.mod_eq_of_lt hj, Nat.mod_eq_of_lt hk] at heq

theorem offset_lt (head i : Fin n) : offset head i < n := by
  unfold offset
  split_ifs <;> omega

theorem slot_offset (head i : Fin n) : slot head (offset head i) = i := by
  apply Fin.ext
  unfold slot offset
  split_ifs with h
  · have heq : head.val + (i.val - head.val) = i.val := by omega
    simp [heq, Nat.mod_eq_of_lt i.isLt]
  · have heq : head.val + (n - head.val + i.val) = i.val + n := by omega
    simp [heq, Nat.mod_eq_of_lt i.isLt]

theorem offset_slot (head : Fin n) (hk : k < n) : offset head (slot head k) = k :=
  slot_injective (offset_lt _ _) hk (slot_offset _ _)

theorem slot_ne (hj : j < n) (hk : k < n) (h : j ≠ k) : slot head j ≠ slot head k :=
  fun heq => h (slot_injective hj hk heq)

/-- Every slot is at some distance. -/
theorem exists_slot (head i : Fin n) : ∃ k < n, slot head k = i :=
  ⟨offset head i, offset_lt _ _, slot_offset _ _⟩

theorem offset_injective {head i i' : Fin n} (h : offset head i = offset head i') : i = i' := by
  rw [← slot_offset head i, h, slot_offset]

/-- When the head has moved on, a slot in front of it is as much nearer. -/
theorem offset_slot_head (hjk : j ≤ k) (hk : k < n) :
    offset (slot head j) (slot head k) = k - j := by
  have heq : slot head k = slot (slot head j) (k - j) := by
    rw [slot_slot]
    congr 1
    omega
  rw [heq, offset_slot _ (by omega)]

theorem get_set (slots : Vector (Option α) n) (i j : Fin n) (o : Option α) :
    (slots.set i o).get j = if i = j then o else slots.get j := by
  simp only [Fin.ext_iff]
  exact Vector.getElem_set i.isLt j.isLt

theorem filterMap_getElem?_range (h : l.length ≤ n) : (List.range n).filterMap (l[·]?) = l := by
  induction l generalizing n with
  | nil => simp
  | cons a l ih =>
    obtain ⟨m, rfl⟩ : ∃ m, n = m + 1 := ⟨n - 1, by simp at h; omega⟩
    rw [List.range_succ_eq_map, List.filterMap_cons, List.filterMap_map]
    exact congrArg (a :: ·) (ih (Nat.le_of_succ_le_succ h))

namespace Holds

theorem toList_eq (h : Holds slots head tail l) : toList slots head = l := by
  calc toList slots head = (List.range n).filterMap (l[·]?) :=
        List.filterMap_congr fun k hk => h.get_slot k (List.mem_range.mp hk)
    _ = l := filterMap_getElem?_range h.length_le

theorem empty (head : Fin n) : Holds (Vector.replicate n (none : Option α)) head head [] where
  length_le := Nat.zero_le _
  tail_eq := by simp
  get_slot := fun k _ => Vector.getElem_replicate (slot head k).isLt

theorem get_head (h : Holds slots head tail l) : slots.get head = l.head? := by
  have hget := h.get_slot 0 (Nat.zero_lt_of_lt head.isLt)
  rw [slot_zero] at hget
  rw [hget, List.head?_eq_getElem?]

/-- The element at a distance in the list. -/
theorem get_of_getElem? (h : Holds slots head tail l) (ha : l[k]? = some a) :
    slots.get (slot head k) = some a := by
  have hlt : k < l.length := (List.getElem?_eq_some_iff.mp ha).1
  rw [h.get_slot k (hlt.trans_le h.length_le), ha]

theorem get_eq_some_iff (h : Holds slots head tail l) :
    slots.get i = some a ↔ ∃ k, slot head k = i ∧ l[k]? = some a := by
  constructor
  · intro ha
    obtain ⟨k, hk, rfl⟩ := exists_slot head i
    exact ⟨k, rfl, (h.get_slot k hk).symm.trans ha⟩
  · rintro ⟨k, rfl, ha⟩
    exact h.get_of_getElem? ha

/-- The occupied slots are those between head and tail. -/
theorem isSome_iff (h : Holds slots head tail l) :
    (slots.get i).isSome = true ↔ ∃ k < l.length, slot head k = i := by
  rw [Option.isSome_iff_exists]
  simp only [h.get_eq_some_iff, List.getElem?_eq_some_iff]
  constructor
  · rintro ⟨_, k, hslot, hk, _⟩
    exact ⟨k, hk, hslot⟩
  · rintro ⟨k, hk, hslot⟩
    exact ⟨l[k], k, hslot, hk, rfl⟩

theorem tail_eq_none_iff (h : Holds slots head tail l) : slots.get tail = none ↔ l.length < n := by
  constructor
  · intro hnone
    by_contra hlt
    have heq : l.length = n := le_antisymm h.length_le (not_lt.mp hlt)
    have htail : tail = head := by rw [h.tail_eq, heq, slot_full]
    have hn : 0 < n := Nat.zero_lt_of_lt head.isLt
    rw [htail, h.get_head, List.head?_eq_none_iff] at hnone
    rw [hnone] at heq
    exact hn.ne heq
  · intro hlt
    have hget := h.get_slot l.length hlt
    rw [← h.tail_eq] at hget
    rw [hget, List.getElem?_eq_none le_rfl]

/-- The occupied slots are all, or those that are nearer to the head than the tail. -/
theorem isSome_iff_offset (h : Holds slots head tail l) (i : Fin n) :
    (slots.get i).isSome = true ↔
      (slots.get tail).isSome = true ∨ offset head i < offset head tail := by
  obtain ⟨k, hk, rfl⟩ := exists_slot head i
  have hsome : (slots.get (slot head k)).isSome = true ↔ k < l.length := by
    rw [h.get_slot k hk, Option.isSome_iff_ne_none, Ne, List.getElem?_eq_none_iff, not_le]
  have htail : (slots.get tail).isSome = true ↔ l.length = n := by
    rw [Option.isSome_iff_ne_none, Ne, h.tail_eq_none_iff]
    have hle := h.length_le
    omega
  rw [hsome, htail, offset_slot head hk, h.tail_eq]
  by_cases hfull : l.length = n
  · simp [hfull, hk]
  · rw [offset_slot head (lt_of_le_of_ne h.length_le hfull)]
    simp [hfull]

theorem head_eq_tail (h : Holds slots head tail l) (hfull : (slots.get tail).isSome = true) :
    head = tail := by
  have hlength : l.length = n := by
    rw [Option.isSome_iff_ne_none, Ne, h.tail_eq_none_iff] at hfull
    exact le_antisymm h.length_le (not_lt.mp hfull)
  rw [h.tail_eq, hlength, slot_full]

theorem head_eq_none_iff (h : Holds slots head tail l) : slots.get head = none ↔ l = [] := by
  rw [h.get_head, List.head?_eq_none_iff]

/-- An element at the tail is appended. -/
theorem push (h : Holds slots head tail l) (hfree : slots.get tail = none) (a : α) :
    Holds (slots.set tail (some a)) head (next tail) (l ++ [a]) := by
  have hlt : l.length < n := h.tail_eq_none_iff.mp hfree
  refine ⟨by simpa using hlt, ?_, ?_⟩
  · rw [next_eq_slot, h.tail_eq, slot_slot, List.length_append, List.length_singleton]
  · intro k hk
    rw [get_set]
    by_cases hkl : k = l.length
    · subst hkl
      rw [if_pos h.tail_eq, List.getElem?_concat_length]
    · have hne : tail ≠ slot head k := by
        rw [h.tail_eq]
        exact slot_ne hlt hk (Ne.symm hkl)
      rw [if_neg hne, h.get_slot k hk, List.getElem?_append]
      split_ifs with hlt
      · rfl
      · rw [List.getElem?_eq_none (by omega), List.getElem?_eq_none (by simp; omega)]

/-- The element at the head is removed. -/
theorem pop (h : Holds slots head tail (a :: l)) :
    Holds (slots.set head none) (next head) tail l := by
  have hlen : l.length < n := h.length_le
  refine ⟨hlen.le, ?_, ?_⟩
  · rw [h.tail_eq, next_eq_slot, slot_slot, List.length_cons, Nat.add_comm]
  · intro k hk
    rw [next_eq_slot, slot_slot, get_set]
    by_cases hlast : 1 + k = n
    · have heq : slot head (1 + k) = head := by rw [hlast, slot_full]
      rw [if_pos heq.symm, List.getElem?_eq_none (by omega)]
    · have hlt : 1 + k < n := by omega
      have hne : head ≠ slot head (1 + k) := by
        intro heq
        have hslots : slot head 0 = slot head (1 + k) := (slot_zero head).trans heq
        have hzero : 0 = 1 + k := slot_injective (Nat.zero_lt_of_lt hlt) hlt hslots
        omega
      rw [if_neg hne, h.get_slot (1 + k) hlt, Nat.add_comm 1 k, List.getElem?_cons_succ]

/-- An element is replaced. -/
theorem set (h : Holds slots head tail l) (hk : k < l.length) (a : α) :
    Holds (slots.set (slot head k) (some a)) head tail (l.set k a) := by
  refine ⟨by simpa using h.length_le, by simpa using h.tail_eq, ?_⟩
  intro j hj
  rw [get_set, List.getElem?_set]
  by_cases hjk : k = j
  · subst hjk
    rw [if_pos rfl, if_pos rfl, if_pos hk]
  · have hne : slot head k ≠ slot head j := slot_ne (hk.trans_le h.length_le) hj hjk
    rw [if_neg hne, if_neg hjk]
    exact h.get_slot j hj

end Holds

end RingBuffer
