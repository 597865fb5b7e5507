import Llvmta.Library.WrappingCounter
import Llvmta.Memory.CompositionalAbstractCache

/-!
# The loops over the lines of an interval

`classify` and `getAge` walk over the cache lines of an interval with a 32-bit
counter. When the interval ends with the last line of the address space, the
counter wraps around to the first lines and the loop goes on, unless the result
has become the top of its lattice before.
-/

namespace Llvmta

open Checked

namespace AbstractCacheImpl

variable (T : CacheTraits) {σ : Type} (C : CacheSetAnalysis σ)
  (ageOf : σ → AbstractAddress → Except Fault ℤ) (c : AbstractCacheImpl σ)

/-- One round of the loop of `classify`. -/
def classifyLine (line : ℕ) (result : Classification) : Except Fault Classification := do
  let set ← read c.cacheSets (getTagAndIndex T line).2
  let cl ← C.classify set (.ofUnsigned line)
  .ok (result.join cl)

/-- One round of the loop of `getAge`. -/
def ageOfLine (line : ℕ) (age : ℤ) : Except Fault ℤ := do
  let set ← read c.cacheSets (getTagAndIndex T line).2
  let setAge ← ageOf set (.ofUnsigned line)
  .ok (max age setAge)

theorem classifyLoop_eq (upAligned fuel lowAligned : ℕ) (result : Classification) :
    classifyLoop T C c upAligned fuel lowAligned result =
      Wrapping.loop (2 ^ 32) T.lineSize upAligned (· = .clUnknown) (classifyLine T C c)
        .divergence fuel lowAligned result := by
  induction fuel generalizing lowAligned result with
  | zero => rfl
  | succ fuel ih =>
    unfold classifyLoop Wrapping.loop
    simp only [classifyLine, toUnsigned, bind_assoc, ih]
    rfl

theorem getAgeLoop_eq (upAligned fuel lowAligned : ℕ) (age : ℤ) :
    getAgeLoop T ageOf c upAligned fuel lowAligned age =
      Wrapping.loop (2 ^ 32) T.lineSize upAligned (· = intMax) (ageOfLine T ageOf c)
        .divergence fuel lowAligned age := by
  induction fuel generalizing lowAligned age with
  | zero => rfl
  | succ fuel ih =>
    unfold getAgeLoop Wrapping.loop
    simp only [ageOfLine, toUnsigned, bind_assoc, ih]
    rfl

/-- The lines at which `classify` looks within `fuel` rounds. -/
def classifyVisits (addr : AbstractAddress) (fuel : ℕ) : List ℕ :=
  if addr.isSameInterval .getUnknownAddress then []
  else Wrapping.visits (2 ^ 32) T.lineSize (alignToCacheline T addr.interval.upper) (· = .clUnknown)
    (classifyLine T C c) fuel (alignToCacheline T addr.interval.lower) .clBot

/-- The lines at which `getAge` looks within `fuel` rounds. -/
def getAgeVisits (addr : AbstractAddress) (fuel : ℕ) : List ℕ :=
  if addr.isSameInterval .getUnknownAddress then []
  else Wrapping.visits (2 ^ 32) T.lineSize (alignToCacheline T addr.interval.upper) (· = intMax)
    (ageOfLine T ageOf c) fuel (alignToCacheline T addr.interval.lower) 0

/-- A loop that looks at these lines ends, and does not come back to a line. -/
def EndsInOrder (visits : ℕ → List ℕ) : Prop :=
  ∃ fuel, (visits fuel).length < fuel ∧ (visits fuel).Pairwise (· < ·)

theorem endsInOrder_nil : EndsInOrder fun _ => [] := ⟨1, Nat.one_pos, List.Pairwise.nil⟩

/-- The lines of the interval. -/
def linesOf (addr : AbstractAddress) : List ℕ :=
  List.range' (alignToCacheline T addr.interval.lower)
    ((alignToCacheline T addr.interval.upper - alignToCacheline T addr.interval.lower) /
      T.lineSize + 1) T.lineSize

/-- The number behind the last line of the interval is an address. -/
def EndsBelowTop (addr : AbstractAddress) : Prop :=
  alignToCacheline T addr.interval.upper < alignToCacheline T addr.interval.lower ∨
    0 < T.lineSize ∧ alignToCacheline T addr.interval.lower +
      ((alignToCacheline T addr.interval.upper - alignToCacheline T addr.interval.lower) /
        T.lineSize + 1) * T.lineSize < 2 ^ 32

instance (addr : AbstractAddress) : Decidable (EndsBelowTop T addr) :=
  inferInstanceAs (Decidable (_ ∨ _))

variable {T} in
/-- With lines of a power of two, the interval must not reach the last line. -/
theorem endsBelowTop_iff {k : ℕ} (hk : k < 32) (hL : T.lineSize = 2 ^ k) (addr : AbstractAddress) :
    EndsBelowTop T addr ↔ alignToCacheline T addr.interval.upper + T.lineSize < 2 ^ 32 := by
  have hpos : 0 < T.lineSize := hL ▸ Nat.two_pow_pos k
  have hle : addr.interval.lower / T.lineSize ≤ addr.interval.upper / T.lineSize :=
    Nat.div_le_div_right addr.interval.lower_le
  have hlower : addr.interval.lower < 2 ^ 32 :=
    addr.interval.lower_le.trans_lt addr.interval.upper_lt
  unfold EndsBelowTop alignToCacheline
  rw [getCachelineAddress_eq T hk hL hlower, getCachelineAddress_eq T hk hL addr.interval.upper_lt]
  generalize addr.interval.lower / T.lineSize = a at hle
  generalize addr.interval.upper / T.lineSize = b at hle
  have hmul : a * T.lineSize ≤ b * T.lineSize := Nat.mul_le_mul_right _ hle
  have hcount : (b * T.lineSize - a * T.lineSize) / T.lineSize = b - a := by
    rw [← Nat.sub_mul, Nat.mul_div_cancel _ hpos]
  have hsum : a * T.lineSize + (b - a + 1) * T.lineSize = b * T.lineSize + T.lineSize := by
    rw [← Nat.add_mul, ← Nat.add_assoc, Nat.add_sub_cancel' hle, Nat.succ_mul]
  rw [hcount, hsum]
  omega

variable {T} in
theorem alignToCacheline_lt (addr : ℕ) : alignToCacheline T addr < 2 ^ 32 :=
  getCachelineAddress_lt T addr

/-- What both loops have in common. -/
theorem orderly_iff {ρ : Type} {stop : ρ → Prop} [DecidablePred stop]
    {body : ℕ → ρ → Except Fault ρ} (hL : T.lineSize < 2 ^ 32) (addr : AbstractAddress) (r : ρ) :
    Wrapping.Orderly (2 ^ 32) T.lineSize (alignToCacheline T addr.interval.upper) stop body
        (alignToCacheline T addr.interval.lower) r ↔
      EndsBelowTop T addr ∨ Wrapping.Halts stop body (linesOf T addr) r := by
  by_cases hle : alignToCacheline T addr.interval.lower ≤ alignToCacheline T addr.interval.upper
  · rw [Wrapping.orderly_iff hL (alignToCacheline_lt _) hle]
    unfold EndsBelowTop linesOf
    rw [or_iff_right (a := alignToCacheline T addr.interval.upper < _) (Nat.not_lt.mpr hle)]
  · have hlt : alignToCacheline T addr.interval.upper < alignToCacheline T addr.interval.lower := by
      omega
    exact ⟨fun _ => .inl (.inl hlt), fun _ => Wrapping.orderly_of_stop (.inl hlt)⟩

/-- `classify` and `getAge` look at each line once and end exactly for the unknown
address, for intervals that end below the last line of the address space, and for
those whose lines bring the result to the top of its lattice, or a set to an
error, before the counter wraps around. -/
theorem endsInOrder_iff (hL : T.lineSize < 2 ^ 32) (addr : AbstractAddress) :
    (EndsInOrder (classifyVisits T C c addr) ↔
      addr.isSameInterval .getUnknownAddress = true ∨ EndsBelowTop T addr ∨
        Wrapping.Halts (· = .clUnknown) (classifyLine T C c) (linesOf T addr) .clBot) ∧
    (EndsInOrder (getAgeVisits T ageOf c addr) ↔
      addr.isSameInterval .getUnknownAddress = true ∨ EndsBelowTop T addr ∨
        Wrapping.Halts (· = intMax) (ageOfLine T ageOf c) (linesOf T addr) 0) := by
  by_cases hunknown : addr.isSameInterval .getUnknownAddress = true
  · constructor
    · have hnil : classifyVisits T C c addr = fun _ => [] := by
        funext fuel
        simp only [classifyVisits, hunknown, if_true]
      exact ⟨fun _ => .inl hunknown, fun _ => hnil ▸ endsInOrder_nil⟩
    · have hnil : getAgeVisits T ageOf c addr = fun _ => [] := by
        funext fuel
        simp only [getAgeVisits, hunknown, if_true]
      exact ⟨fun _ => .inl hunknown, fun _ => hnil ▸ endsInOrder_nil⟩
  · constructor
    · rw [or_iff_right hunknown, ← orderly_iff T hL]
      simp only [EndsInOrder, classifyVisits, if_neg hunknown]
      rfl
    · rw [or_iff_right hunknown, ← orderly_iff T hL]
      simp only [EndsInOrder, getAgeVisits, if_neg hunknown]
      rfl

/-- A loop that ends in order joins the classifications of the lines it looks at. -/
theorem classify_eq_foldlM {addr : AbstractAddress}
    (hunknown : addr.isSameInterval .getUnknownAddress = false)
    (h : EndsInOrder (classifyVisits T C c addr)) :
    ∃ l : List ℕ, l.Pairwise (· < ·) ∧
      classify T C c addr = l.foldlM (fun result line => classifyLine T C c line result) .clBot := by
  simp only [EndsInOrder, classifyVisits, hunknown, Bool.false_eq_true, if_false] at h
  obtain ⟨l, hl, _, hloop⟩ := Wrapping.Orderly.loop_eq h (alignToCacheline_lt _) .divergence
    (show 2 ^ 32 < classifyFuel by decide)
  refine ⟨l, hl, ?_⟩
  rw [← hloop, classify, hunknown, classifyLoop_eq]
  rfl

/-- A loop that ends in order takes the greatest age of the lines it looks at. -/
theorem getAge_eq_foldlM {addr : AbstractAddress}
    (hunknown : addr.isSameInterval .getUnknownAddress = false)
    (h : EndsInOrder (getAgeVisits T ageOf c addr)) :
    ∃ l : List ℕ, l.Pairwise (· < ·) ∧
      getAge T ageOf c addr = l.foldlM (fun age line => ageOfLine T ageOf c line age) 0 := by
  simp only [EndsInOrder, getAgeVisits, hunknown, Bool.false_eq_true, if_false] at h
  obtain ⟨l, hl, _, hloop⟩ := Wrapping.Orderly.loop_eq h (alignToCacheline_lt _) .divergence
    (show 2 ^ 32 < classifyFuel by decide)
  refine ⟨l, hl, ?_⟩
  rw [← hloop, getAge, hunknown, getAgeLoop_eq]
  rfl

section Example

/-- Four sets with two ways of 16 bytes. -/
def fourTwoWaySets : CacheTraits := ⟨16, 2, 4, false, false, 1, 5⟩

def oneCore : Multicore := ⟨false, 0, [], fun _ => []⟩

/-- The may analysis of an empty cache: every line is a miss. -/
def emptyMay : AbstractCacheImpl LruMinAgeAbstractCache :=
  new fourTwoWaySets (LruMinAgeAbstractCache.setAnalysis fourTwoWaySets oneCore) true

/-- The ages of the must analysis. -/
def mustAge (s : LruMaxAgeAbstractCache) (addr : AbstractAddress) : Except Fault ℤ := do
  LruMaxAgeAbstractCache.getAge fourTwoWaySets s (← getTagOf fourTwoWaySets addr)

def emptyMust : AbstractCacheImpl LruMaxAgeAbstractCache :=
  new fourTwoWaySets (LruMaxAgeAbstractCache.setAnalysis fourTwoWaySets oneCore) true

/-- Three lines in the middle of the address space. -/
theorem endsInOrder_iff_threeLines :
    let addr : AbstractAddress := ⟨⟨0x104, 0x12b, by decide, by decide⟩, none⟩
    EndsInOrder (classifyVisits fourTwoWaySets (LruMinAgeAbstractCache.setAnalysis fourTwoWaySets oneCore)
      emptyMay addr) ∧ EndsInOrder (getAgeVisits fourTwoWaySets mustAge emptyMust addr) := by
  intro addr
  have hends : EndsBelowTop fourTwoWaySets addr := by decide
  exact ⟨(endsInOrder_iff fourTwoWaySets (LruMinAgeAbstractCache.setAnalysis fourTwoWaySets oneCore)
      (fun _ _ => .ok 0) emptyMay (by decide) addr).1.mpr (.inr (.inl hends)),
    (endsInOrder_iff fourTwoWaySets (LruMaxAgeAbstractCache.setAnalysis fourTwoWaySets oneCore)
      mustAge emptyMust (by decide) addr).2.mpr (.inr (.inl hends))⟩

/-- Every line of the empty cache is a miss. -/
theorem classifyLine_emptyMay {line : ℕ} (result : Classification) :
    classifyLine fourTwoWaySets (LruMinAgeAbstractCache.setAnalysis fourTwoWaySets oneCore) emptyMay line
      result = .ok (result.join .clMiss) := by
  have hindex : (getTagAndIndex fourTwoWaySets line).2 < 4 := Nat.mod_lt _ (by decide)
  have hread : read emptyMay.cacheSets (getTagAndIndex fourTwoWaySets line).2 =
      .ok (LruMinAgeAbstractCache.new fourTwoWaySets true) := by
    rw [read_of_lt (by simpa [emptyMay, new, fourTwoWaySets] using hindex)]
    simp only [emptyMay, new, List.getElem_replicate]
    rfl
  have hclassify (tag index : ℕ) : LruMinAgeAbstractCache.classify fourTwoWaySets oneCore
      (LruMinAgeAbstractCache.new fourTwoWaySets true) tag index = .clMiss := rfl
  have hpoint : (AbstractAddress.ofUnsigned line).interval.lower =
      (AbstractAddress.ofUnsigned line).interval.upper := rfl
  simp only [classifyLine, hread, ok_bind, LruMinAgeAbstractCache.setAnalysis, getTagOf, getindexOf,
    hpoint, beq_self_eq_true, assertThat_true, hclassify]

/-- The last line of the address space: all further lines are misses as well, and
the loop goes around for ever. -/
theorem classify_lastLine :
    let C := LruMinAgeAbstractCache.setAnalysis fourTwoWaySets oneCore
    let addr := AbstractAddress.ofAddress 0xfffffffc (by decide)
    classify fourTwoWaySets C emptyMay addr = .error .divergence ∧
      ¬ EndsInOrder (classifyVisits fourTwoWaySets C emptyMay addr) := by
  intro C addr
  have hunknown : addr.isSameInterval .getUnknownAddress = false := by decide
  have hupper : alignToCacheline fourTwoWaySets addr.interval.upper = 0xfffffff0 := by decide
  have hlower : alignToCacheline fourTwoWaySets addr.interval.lower = 0xfffffff0 := by decide
  constructor
  · simp only [classify, hunknown, Bool.false_eq_true, if_false, classifyLoop_eq, hupper, hlower]
    generalize classifyFuel = fuel
    apply Wrapping.loop_of_invariant
      (I := fun line result => (16 ∣ line ∧ line < 2 ^ 32) ∧ (result = .clBot ∨ result = .clMiss))
    · rintro line result ⟨⟨hline, hlt⟩, hresult⟩
      refine ⟨by omega, ?_⟩
      rcases hresult with rfl | rfl <;> decide
    · rintro line result ⟨⟨hline, hlt⟩, hresult⟩
      refine ⟨result.join .clMiss, classifyLine_emptyMay result, ⟨?_, ?_⟩, ?_⟩
      · have hstep : fourTwoWaySets.lineSize = 16 := rfl
        omega
      · exact Nat.mod_lt _ (by decide)
      · rcases hresult with rfl | rfl <;> exact .inr (by decide)
    · exact ⟨⟨by decide, by decide⟩, .inl rfl⟩
  · intro hends
    have hiff := (endsInOrder_iff fourTwoWaySets C (fun _ _ => .ok 0) emptyMay (by decide) addr).1
    rcases hiff.mp hends with hsame | htop | hhalts
    · rw [hunknown] at hsame
      cases hsame
    · exact absurd htop (by decide)
    · have hlines : linesOf fourTwoWaySets addr = [0xfffffff0] := by decide
      rw [hlines] at hhalts
      rcases hhalts with hbot | hmiss
      · exact absurd hbot (by decide)
      · have hstop : Classification.clBot.join .clMiss = .clUnknown :=
          hmiss _ (classifyLine_emptyMay _)
        exact absurd hstop (by decide)

end Example

end AbstractCacheImpl

end Llvmta
