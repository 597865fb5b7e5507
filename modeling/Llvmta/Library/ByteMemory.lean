import Mathlib.Data.List.Basic
import Mathlib.Order.Basic
import Mathlib.Tactic

/-!
# Byte memory

A memory of bytes under 32-bit addresses that wrap around. Words are read and
written in little-endian order, at any alignment. A write keeps the word at an
address exactly when each byte that it puts into this word is already there.
-/

instance instLinearOrderWords (n : ℕ) : LinearOrder (BitVec n) where
  le_refl := BitVec.le_refl
  le_trans _ _ _ := BitVec.le_trans
  le_antisymm _ _ := BitVec.le_antisymm
  le_total := BitVec.le_total
  lt_iff_le_not_ge x y := by
    rw [BitVec.lt_def, BitVec.le_def, BitVec.le_def]
    omega
  toDecidableLE := inferInstance
  toDecidableEq := inferInstance
  toDecidableLT := inferInstance

/-- A 32-bit register value or address. -/
abbrev Word := BitVec 32

namespace ByteMemory

/-- The little-endian word at an address. -/
def wordAt (mem : Word → BitVec 8) (a : Word) : Word :=
  mem (a + 3) ++ mem (a + 2) ++ mem (a + 1) ++ mem a

/-- The bytes of a word, the lowest one first. -/
def bytesOf (w : Word) : List (BitVec 8) :=
  [w.extractLsb' 0 8, w.extractLsb' 8 8, w.extractLsb' 16 8, w.extractLsb' 24 8]

/-- The memory after the bytes are written from an address on. -/
def write (mem : Word → BitVec 8) (c : Word) : List (BitVec 8) → Word → BitVec 8
  | [] => mem
  | b :: bytes => Function.update (write mem (c + 1) bytes) c b

/-- Each byte that is written into the word at `a` is the one already there. -/
def Harmless (mem : Word → BitVec 8) (c : Word) (bytes : List (BitVec 8)) (a : Word) : Prop :=
  ∀ i < 4, ∀ j < bytes.length, a + BitVec.ofNat 32 i = c + BitVec.ofNat 32 j →
    bytes[j]? = some (mem (a + BitVec.ofNat 32 i))

variable {mem mem' : Word → BitVec 8} {a c : Word} {bytes : List (BitVec 8)}

theorem append_inj {m n : ℕ} {x x' : BitVec m} {y y' : BitVec n} :
    x ++ y = x' ++ y' ↔ x = x' ∧ y = y' := by
  constructor
  · intro h
    have hhigh := congrArg (BitVec.extractLsb' n m) h
    have hlow := congrArg (BitVec.extractLsb' 0 n) h
    rw [BitVec.extractLsb'_append_eq_left, BitVec.extractLsb'_append_eq_left] at hhigh
    rw [BitVec.extractLsb'_append_eq_right, BitVec.extractLsb'_append_eq_right] at hlow
    exact ⟨hhigh, hlow⟩
  · rintro ⟨rfl, rfl⟩
    rfl

/-- Equal words have equal bytes. -/
theorem wordAt_eq_iff : wordAt mem' a = wordAt mem a ↔
    ∀ i < 4, mem' (a + BitVec.ofNat 32 i) = mem (a + BitVec.ofNat 32 i) := by
  rw [wordAt, wordAt, append_inj, append_inj, append_inj]
  constructor
  · rintro ⟨⟨⟨h3, h2⟩, h1⟩, h0⟩ i hi
    interval_cases i
    · simpa using h0
    · exact h1
    · exact h2
    · exact h3
  · intro h
    have h0 := h 0 (by decide)
    rw [BitVec.add_zero] at h0
    exact ⟨⟨⟨h 3 (by decide), h 2 (by decide)⟩, h 1 (by decide)⟩, h0⟩

/-- Outside the written bytes the memory is unchanged. -/
theorem write_of_ne (h : ∀ j < bytes.length, a ≠ c + BitVec.ofNat 32 j) :
    write mem c bytes a = mem a := by
  induction bytes generalizing c with
  | nil => rfl
  | cons b bytes ih =>
    have hc : a ≠ c := by simpa using h 0 (Nat.zero_lt_succ _)
    rw [write, Function.update_of_ne hc]
    apply ih
    intro j hj
    have hsucc := h (j + 1) (Nat.succ_lt_succ hj)
    rwa [BitVec.ofNat_add, BitVec.add_comm (BitVec.ofNat 32 j), ← BitVec.add_assoc] at hsucc

/-- A write that does not wrap onto itself puts each byte at its place. -/
theorem write_of_lt (hlen : bytes.length ≤ 2 ^ 32) {j : ℕ} (hj : j < bytes.length) :
    write mem c bytes (c + BitVec.ofNat 32 j) = bytes[j] := by
  induction bytes generalizing c j with
  | nil => exact absurd hj (Nat.not_lt_zero j)
  | cons b bytes ih =>
    rw [List.length_cons] at hlen hj
    cases j with
    | zero =>
      rw [write, BitVec.add_zero, Function.update_self]
      rfl
    | succ j =>
      have hne : c + BitVec.ofNat 32 (j + 1) ≠ c := by
        intro h
        have hzero : BitVec.ofNat 32 (j + 1) = 0 := by
          simpa using h
        have := congrArg BitVec.toNat hzero
        rw [BitVec.toNat_ofNat, Nat.mod_eq_of_lt (by omega)] at this
        exact absurd this (Nat.succ_ne_zero j)
      rw [write, Function.update_of_ne hne, BitVec.ofNat_add, BitVec.add_comm (BitVec.ofNat 32 j),
        ← BitVec.add_assoc]
      exact ih (by omega) (by omega)

/-- A write keeps the word at an address exactly if it is harmless to it. -/
theorem wordAt_write_eq_iff (hlen : bytes.length ≤ 2 ^ 32) :
    wordAt (write mem c bytes) a = wordAt mem a ↔ Harmless mem c bytes a := by
  rw [wordAt_eq_iff]
  constructor
  · intro h i hi j hj heq
    rw [← h i hi, heq, write_of_lt hlen hj]
    exact List.getElem?_eq_getElem hj
  · intro h i hi
    by_cases hbyte : ∃ j < bytes.length, a + BitVec.ofNat 32 i = c + BitVec.ofNat 32 j
    · obtain ⟨j, hj, heq⟩ := hbyte
      have hsame := h i hi j hj heq
      rw [List.getElem?_eq_getElem hj, Option.some_inj] at hsame
      rw [← hsame, heq]
      exact write_of_lt hlen hj
    · exact write_of_ne fun j hj heq => hbyte ⟨j, hj, heq⟩

theorem length_bytesOf (w : Word) : (bytesOf w).length = 4 := rfl

/-- The word that was written is read back. -/
theorem wordAt_write_bytesOf (w : Word) : wordAt (write mem c (bytesOf w)) c = w := by
  have hlen : (bytesOf w).length ≤ 2 ^ 32 := by
    rw [length_bytesOf]
    decide
  have h0 : write mem c (bytesOf w) (c + 0#32) = w.extractLsb' 0 8 :=
    write_of_lt hlen (show 0 < 4 by decide)
  have h1 : write mem c (bytesOf w) (c + 1) = w.extractLsb' 8 8 :=
    write_of_lt hlen (show 1 < 4 by decide)
  have h2 : write mem c (bytesOf w) (c + 2) = w.extractLsb' 16 8 :=
    write_of_lt hlen (show 2 < 4 by decide)
  have h3 : write mem c (bytesOf w) (c + 3) = w.extractLsb' 24 8 :=
    write_of_lt hlen (show 3 < 4 by decide)
  rw [BitVec.add_zero] at h0
  calc wordAt (write mem c (bytesOf w)) c
      = w.extractLsb' 24 8 ++ w.extractLsb' 16 8 ++ w.extractLsb' 8 8 ++ w.extractLsb' 0 8 := by
        rw [wordAt, h0, h1, h2, h3]
    _ = w.extractLsb' 0 32 := by
        rw [BitVec.extractLsb'_append_extractLsb'_eq_extractLsb' (show 24 = 16 + 8 from rfl),
          BitVec.extractLsb'_append_extractLsb'_eq_extractLsb' (show 16 = 8 + 8 from rfl),
          BitVec.extractLsb'_append_extractLsb'_eq_extractLsb' (show 8 = 0 + 8 from rfl)]
    _ = w := BitVec.extractLsb'_eq_self

theorem write_append (bytes bytes' : List (BitVec 8)) : write mem c (bytes ++ bytes') =
    write (write mem (c + BitVec.ofNat 32 bytes.length) bytes') c bytes := by
  induction bytes generalizing c with
  | nil => simp [write]
  | cons b bytes ih =>
    rw [List.cons_append, write, write, ih, List.length_cons, BitVec.ofNat_add,
      BitVec.add_comm (BitVec.ofNat 32 bytes.length), ← BitVec.add_assoc]
    rfl

/-- A write elsewhere keeps a word. -/
theorem wordAt_write_of_disjoint
    (h : ∀ i < 4, ∀ j < bytes.length, a + BitVec.ofNat 32 i ≠ c + BitVec.ofNat 32 j) :
    wordAt (write mem c bytes) a = wordAt mem a :=
  wordAt_eq_iff.mpr fun i hi => write_of_ne (h i hi)

/-- Of words that were written one after the other each is read back. -/
theorem wordAt_write_words {α : Type*} (f : α → Word) (xs : List α)
    (hlen : 4 * xs.length ≤ 2 ^ 32) {i : ℕ} (hi : i < xs.length) :
    wordAt (write mem c (xs.flatMap fun x => bytesOf (f x))) (c + BitVec.ofNat 32 i * 4) =
      f xs[i] := by
  induction xs generalizing c i with
  | nil => exact absurd hi (Nat.not_lt_zero i)
  | cons x xs ih =>
    rw [List.length_cons] at hlen hi
    rw [List.flatMap_cons, write_append, length_bytesOf]
    cases i with
    | zero =>
      rw [BitVec.zero_mul, BitVec.add_zero]
      exact wordAt_write_bytesOf (f x)
    | succ i =>
      have hshift : c + BitVec.ofNat 32 (i + 1) * 4 =
          c + BitVec.ofNat 32 4 + BitVec.ofNat 32 i * 4 := by
        rw [BitVec.ofNat_add, BitVec.add_mul, BitVec.add_comm (BitVec.ofNat 32 i * 4),
          ← BitVec.add_assoc]
        rfl
      rw [wordAt_write_of_disjoint]
      · rw [hshift]
        exact ih (by omega) (by omega)
      · intro k hk j hj heq
        rw [length_bytesOf] at hj
        bv_omega

end ByteMemory
