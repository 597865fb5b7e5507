import Llvmta.Memory.CacheTraits

/-!
# Static addresses of global variables

The linker places each global variable at a fixed address. The lines of an array
that map to one cache set are its blocks there; `getPerSetSize` computes a bound
on their number from the address and the size of the array.
-/

namespace Llvmta

/-- The global variables in their order, with addresses and sizes below 2^32. -/
structure StaticAddressProvider where
  getGlobalVariables : List GlobalVariable
  getGlobalVarAddress : GlobalVariable → ℕ
  getArraySize : GlobalVariable → ℕ
  sorted : getGlobalVariables.Pairwise (· < ·)
  pos : ∀ arr, 0 < getGlobalVarAddress arr + getArraySize arr
  fits : ∀ arr, getGlobalVarAddress arr + getArraySize arr < 2 ^ 32

/-- A single array. -/
def StaticAddressProvider.single (address size : ℕ) (hpos : 0 < address + size)
    (hfits : address + size < 2 ^ 32) : StaticAddressProvider where
  getGlobalVariables := [0]
  getGlobalVarAddress _ := address
  getArraySize _ := size
  sorted := List.pairwise_singleton _ _
  pos _ := hpos
  fits _ := hfits

/-- Four sets with lines of 16 bytes. -/
def fourSets (associativity : ℕ) : CacheTraits := ⟨16, associativity, 4, false, false, 1, 5⟩

/-- Lines are a power of two, and one way of the cache holds at least a word and
is a proper part of the address space. -/
structure CacheTraits.Geometry (T : CacheTraits) : Prop where
  lineSize_pow : ∃ k < 32, T.lineSize = 2 ^ k
  nSets_pos : 0 < T.nSets
  word_le : 4 ≤ T.nSets * T.lineSize
  lt : T.nSets * T.lineSize < 2 ^ 32

namespace CacheTraits.Geometry

variable {T : CacheTraits} (hT : T.Geometry)

include hT

theorem lineSize_pos : 0 < T.lineSize := by
  obtain ⟨k, _, hL⟩ := hT.lineSize_pow
  exact hL ▸ Nat.two_pow_pos k

theorem getCachelineAddress_eq {addr : ℕ} (h : addr < 2 ^ 32) :
    getCachelineAddress T addr = addr / T.lineSize * T.lineSize := by
  obtain ⟨k, hk, hL⟩ := hT.lineSize_pow
  exact Llvmta.getCachelineAddress_eq T hk hL h

end CacheTraits.Geometry

theorem geometry_fourSets (associativity : ℕ) : (fourSets associativity).Geometry :=
  ⟨⟨4, by decide, rfl⟩, by simp [fourSets], by simp [fourSets], by simp [fourSets]⟩

variable (T : CacheTraits) (P : StaticAddressProvider)

/-- A bound on the blocks of an array in one cache set. -/
def getPerSetSize (ds : GlobalVariable) : ℕ :=
  let base := P.getGlobalVarAddress ds
  let size := toUnsigned (P.getArraySize ds + (base - getCachelineAddress T base))
  let cacheSizePerAssoc := toUnsigned (T.nSets * T.lineSize)
  size / cacheSizePerAssoc + if size % cacheSizePerAssoc ≠ 0 then 1 else 0

/-- The tags under which the lines of an array are in the set `index`. -/
def arrayBlocks (index : ℕ) (arr : GlobalVariable) : Finset ℕ :=
  (((Finset.range (P.getArraySize arr)).image fun i => P.getGlobalVarAddress arr + i).filter
    fun a => getindex T a = index).image (getTag T)

/-- The tags of the set `index` that an access may touch. -/
def MayTouch (index : ℕ) (addr : AbstractAddress) (tag : ℕ) : Prop :=
  match addr.getArray with
  | some arr => tag ∈ arrayBlocks T P index arr
  | none => ∃ a ∈ addr.interval, getindex T a = index ∧ getTag T a = tag

variable {T P} {index : ℕ} {arr : GlobalVariable}

variable (T) in
/-- An address belongs to the line its set index and its tag determine. -/
theorem line_eq (addr : ℕ) :
    getTag T addr * T.nSets + getindex T addr = addr / T.lineSize := by
  rw [getTag, getindex, Nat.mul_comm]
  exact Nat.div_add_mod _ _

theorem mem_arrayBlocks {tag : ℕ} : tag ∈ arrayBlocks T P index arr ↔
    ∃ a, P.getGlobalVarAddress arr ≤ a ∧ a < P.getGlobalVarAddress arr + P.getArraySize arr ∧
      getindex T a = index ∧ getTag T a = tag := by
  simp only [arrayBlocks, Finset.mem_image, Finset.mem_filter, Finset.mem_range]
  constructor
  · rintro ⟨_, ⟨⟨i, hi, rfl⟩, hindex⟩, htag⟩
    exact ⟨_, Nat.le_add_right _ i, by omega, hindex, htag⟩
  · rintro ⟨a, hle, hlt, hindex, htag⟩
    exact ⟨a, ⟨⟨a - P.getGlobalVarAddress arr, by omega, by omega⟩, hindex⟩, htag⟩

/-- A line between the first and the last line of an array is one of its blocks. -/
theorem mem_arrayBlocks_of_line (hT : T.Geometry) {line tag : ℕ}
    (hsize : 0 < P.getArraySize arr) (hline : tag * T.nSets + index = line) (hindex : index < T.nSets)
    (hfirst : P.getGlobalVarAddress arr / T.lineSize ≤ line)
    (hlast : line ≤ (P.getGlobalVarAddress arr + P.getArraySize arr - 1) / T.lineSize) :
    tag ∈ arrayBlocks T P index arr := by
  have hL := hT.lineSize_pos
  have hmem {a : ℕ} (ha : a / T.lineSize = line) : getindex T a = index ∧ getTag T a = tag := by
    rw [getindex, getTag, ha, ← hline, Nat.mul_comm]
    exact ⟨by rw [Nat.mul_add_mod, Nat.mod_eq_of_lt hindex],
      by rw [Nat.mul_add_div hT.nSets_pos, Nat.div_eq_of_lt hindex, Nat.add_zero]⟩
  rw [mem_arrayBlocks]
  rcases hfirst.eq_or_lt with heq | hlt
  · exact ⟨P.getGlobalVarAddress arr, le_rfl, by omega, hmem heq⟩
  · refine ⟨line * T.lineSize, ?_, ?_, hmem (Nat.mul_div_cancel _ hL)⟩
    · exact ((Nat.div_lt_iff_lt_mul hL).mp hlt).le
    · have := (Nat.le_div_iff_mul_le hL).mp hlast
      omega

/-- Numbers at most `d` apart are at most `d + 1` many. -/
theorem card_le_of_spread {s : Finset ℕ} {d : ℕ} (h : ∀ x ∈ s, ∀ y ∈ s, y ≤ x + d) :
    s.card ≤ d + 1 := by
  rcases s.eq_empty_or_nonempty with rfl | hne
  · exact Nat.zero_le _
  · have hsub : s ⊆ Finset.Icc (s.min' hne) (s.min' hne + d) := by
      intro y hy
      exact Finset.mem_Icc.mpr ⟨s.min'_le y hy, h _ (s.min'_mem hne) y hy⟩
    calc s.card ≤ (Finset.Icc (s.min' hne) (s.min' hne + d)).card := Finset.card_le_card hsub
      _ = d + 1 := by rw [Nat.card_Icc]; omega

/-- Rounding up the quotient of a positive number. -/
theorem div_add_ite (x : ℕ) {m : ℕ} (hx : 0 < x) (hm : 0 < m) :
    (x / m + if x % m ≠ 0 then 1 else 0) = (x - 1) / m + 1 := by
  have hdiv := Nat.div_add_mod x m
  have hmod := Nat.mod_lt x hm
  split_ifs with h
  · rw [Nat.add_right_cancel_iff]
    symm
    apply Nat.div_eq_of_lt_le
    · rw [Nat.mul_comm]; omega
    · rw [Nat.add_one_mul, Nat.mul_comm]; omega
  · have hmod0 : x % m = 0 := not_not.mp h
    have hpos : 0 < x / m := Nat.div_pos (Nat.le_of_dvd hx (Nat.dvd_of_mod_eq_zero hmod0)) hm
    have hlast : (x - 1) / m = x / m - 1 := by
      apply Nat.div_eq_of_lt_le
      · rw [Nat.sub_one_mul, Nat.mul_comm]; omega
      · rw [Nat.sub_add_cancel hpos, Nat.mul_comm]; omega
    omega

/-- The bound counts the lines of the array in steps of the number of sets. -/
theorem getPerSetSize_eq (hT : T.Geometry) (hsize : 0 < P.getArraySize arr) :
    getPerSetSize T P arr =
      ((P.getGlobalVarAddress arr + P.getArraySize arr - 1) / T.lineSize -
        P.getGlobalVarAddress arr / T.lineSize) / T.nSets + 1 := by
  have hfits := P.fits arr
  have hL := hT.lineSize_pos
  have hword := hT.word_le
  have hbase := Nat.div_mul_le_self (P.getGlobalVarAddress arr) T.lineSize
  unfold getPerSetSize
  dsimp only
  rw [hT.getCachelineAddress_eq (by omega), toUnsigned_of_lt hT.lt, toUnsigned_of_lt (by omega),
    div_add_ite _ (by omega) (by omega), Nat.add_right_cancel_iff, Nat.mul_comm T.nSets,
    ← Nat.div_div_eq_div_mul]
  congr 1
  rw [← Nat.sub_mul_div, Nat.mul_comm T.lineSize]
  congr 1
  omega

/-- `getPerSetSize` bounds the number of blocks of an array in any set. -/
theorem card_arrayBlocks_le (hT : T.Geometry) (index : ℕ) (arr : GlobalVariable) :
    (arrayBlocks T P index arr).card ≤ getPerSetSize T P arr := by
  by_cases hsize : 0 < P.getArraySize arr
  · rw [getPerSetSize_eq hT hsize]
    apply card_le_of_spread
    intro x hx y hy
    obtain ⟨a, ha, _, haindex, rfl⟩ := mem_arrayBlocks.mp hx
    obtain ⟨b, _, hb, hbindex, rfl⟩ := mem_arrayBlocks.mp hy
    have hfirst : P.getGlobalVarAddress arr / T.lineSize ≤ a / T.lineSize := Nat.div_le_div_right ha
    have hlast : b / T.lineSize ≤
        (P.getGlobalVarAddress arr + P.getArraySize arr - 1) / T.lineSize :=
      Nat.div_le_div_right (by omega)
    have haline := line_eq T a
    have hbline := line_eq T b
    have hspread : (getTag T b - getTag T a) * T.nSets ≤
        (P.getGlobalVarAddress arr + P.getArraySize arr - 1) / T.lineSize -
          P.getGlobalVarAddress arr / T.lineSize := by
      rw [Nat.sub_mul]
      omega
    have := (Nat.le_div_iff_mul_le hT.nSets_pos).mpr hspread
    omega
  · have hzero : P.getArraySize arr = 0 := Nat.eq_zero_of_not_pos hsize
    simp [arrayBlocks, hzero]

theorem getPerSetSize_lt (hT : T.Geometry) (arr : GlobalVariable) :
    getPerSetSize T P arr < 2 ^ 31 := by
  have hsize : toUnsigned (P.getArraySize arr + (P.getGlobalVarAddress arr -
      getCachelineAddress T (P.getGlobalVarAddress arr))) < 2 ^ 32 := Nat.mod_lt _ (by decide)
  have hword := hT.word_le
  unfold getPerSetSize
  dsimp only
  rw [toUnsigned_of_lt hT.lt]
  generalize toUnsigned (P.getArraySize arr + (P.getGlobalVarAddress arr -
      getCachelineAddress T (P.getGlobalVarAddress arr))) = x at hsize ⊢
  rcases Nat.eq_zero_or_pos x with rfl | hx
  · simp
  · rw [div_add_ite x hx (by omega)]
    have : (x - 1) / (T.nSets * T.lineSize) ≤ (x - 1) / 4 := Nat.div_le_div_left hword (by decide)
    omega

end Llvmta
