import Llvmta.Library.CollectingRun
import Llvmta.Library.LruPath
import Llvmta.Memory.MustAgeConflictPowerset

/-!
# Soundness of the bounds for conflict sets

The accesses since the one to a tag form a path. A bound is valid for a conflict set
if it bounds the recency of the tag after any further accesses to the arrays of the
set. Both ageing operations keep all entries valid. A join keeps them valid where it
has an entry of both operands; `getBound` extends the entry of a subset without
ageing it, which is right only if the arrays it adds have no blocks in the set.
-/

namespace Llvmta

open Checked Lru

namespace MustAgeConflictPowerset

section Meaning

variable (T : CacheTraits) (P : StaticAddressProvider) (index tag : ℕ)

/-- The line belongs to an array of the conflict set. -/
def OfArrays (S : ConflictSet) (u : ℕ) : Prop := ∃ arr ∈ S, u ∈ arrayBlocks T P index arr

/-- The bound holds after any accesses to the arrays of `S`. The associativity
stands for any number of lines. -/
def ValidBound (S : ConflictSet) (b : ℕ) (π : List ℕ) : Prop :=
  b < T.associativity → ∀ σ : List ℕ, (∀ u ∈ σ, OfArrays T P index S u) → recency (σ ++ π) tag ≤ b

/-- There is an entry for `S`, or the entries for its subsets lack only arrays
without blocks in the set. -/
def BoundCovered (m : MustAgeConflictPowerset) (S : ConflictSet) : Prop :=
  (m.find? S).isSome ∨ ∀ e ∈ m.perCSBound, e.1 ⊆ S → e.2 < T.associativity →
    ∀ arr ∈ S, arr ∉ e.1 → arrayBlocks T P index arr = ∅

/-- Both operands of a join cover the conflict sets of either of them. -/
def JoinCovered (m other : MustAgeConflictPowerset) : Prop :=
  (∀ e ∈ m.perCSBound, BoundCovered T P index other e.1) ∧
    ∀ e ∈ other.perCSBound, BoundCovered T P index m e.1

/-- The operations on an age. -/
inductive AgeOp where
  | ageByOne
  | ageByArray (arr : GlobalVariable)

/-- One access to a line out of a set of lines, or no access to the cache set. -/
def MayAccess (lines : Set ℕ) (π π' : List ℕ) : Prop := π' = π ∨ ∃ u ∈ lines, π' = u :: π

/-- The operations, and the paths they describe from the access to the tag on. -/
def analysis : Collecting.Analysis Unit AgeOp MustAgeConflictPowerset (List ℕ) Fault where
  start _ := make
  step
    | .ageByOne, m => m.ageBy T 1
    | .ageByArray arr, m => .ok (m.ageByArray T P arr)
  join m other := m.join T P other
  described _ := {[tag]}
  concrete
    | .ageByOne, π, π' => MayAccess Set.univ π π'
    | .ageByArray arr, π, π' => MayAccess (arrayBlocks T P index arr) π π'

/-- `ageBy(1)` asserts that the line is not evicted on all paths. -/
def Asserted : AgeOp → MustAgeConflictPowerset → Set (List ℕ) → Prop
  | .ageByOne, m, _ => m.isAssociativity T = .ok false
  | .ageByArray _, _, _ => True

/-- All entries are valid for all paths of `K`. -/
def Describes (m : MustAgeConflictPowerset) (K : Set (List ℕ)) : Prop :=
  m.perCSBound ≠ [] ∧ ∀ e ∈ m.perCSBound,
    e.2 ≤ T.associativity ∧ ∀ π ∈ K, ValidBound T P index tag e.1 e.2 π

end Meaning

variable {T : CacheTraits} {P : StaticAddressProvider} {index tag : ℕ}

theorem mem_of_find? {m : MustAgeConflictPowerset} {S : ConflictSet} {b : ℕ}
    (h : m.find? S = some b) : (S, b) ∈ m.perCSBound := by
  obtain ⟨e, he, rfl⟩ := Option.map_eq_some_iff.mp h
  have hkey : e.1 = S := by simpa using List.find?_some he
  exact hkey ▸ List.mem_of_find?_eq_some he

/-! ## Valid bounds -/

theorem ValidBound.mono {S : ConflictSet} {b b' : ℕ} {π : List ℕ}
    (h : ValidBound T P index tag S b π) (hb : b ≤ b') : ValidBound T P index tag S b' π := by
  intro hlt σ hσ
  exact (h (by omega) σ hσ).trans hb

theorem validBound_ways (S : ConflictSet) (π : List ℕ) :
    ValidBound T P index tag S T.associativity π := fun h => absurd h (lt_irrefl _)

/-- Any access costs at most one way. -/
theorem ValidBound.succ {S : ConflictSet} {b : ℕ} {π π' : List ℕ} {lines : Set ℕ}
    (h : ValidBound T P index tag S b π) (hstep : MayAccess lines π π') :
    ValidBound T P index tag S (b + 1) π' := by
  rcases hstep with rfl | ⟨u, _, rfl⟩
  · exact h.mono (Nat.le_add_right b 1)
  · intro hlt σ hσ
    have hσ' := h (by omega) σ hσ
    have hcons := recency_append_cons_le σ π u tag
    omega

/-- An access to an array of the conflict set is one that the bound allows for. -/
theorem ValidBound.access {S : ConflictSet} {b : ℕ} {π π' : List ℕ} {arr : GlobalVariable}
    (h : ValidBound T P index tag S b π) (harr : arr ∈ S)
    (hstep : MayAccess (arrayBlocks T P index arr) π π') : ValidBound T P index tag S b π' := by
  rcases hstep with rfl | ⟨u, hu, rfl⟩
  · exact h
  · intro hlt σ hσ
    have hall : ∀ v ∈ σ ++ [u], OfArrays T P index S v := by
      intro v hv
      rcases List.mem_append.mp hv with hv | hv
      · exact hσ v hv
      · rw [List.mem_singleton.mp hv]
        exact ⟨arr, harr, hu⟩
    simpa using h hlt (σ ++ [u]) hall

/-- All accesses to one more array cost at most a way for each of its blocks. -/
theorem ValidBound.insert {S : ConflictSet} {b : ℕ} {π : List ℕ} (arr : GlobalVariable)
    (h : ValidBound T P index tag S b π) :
    ValidBound T P index tag (S.insert arr) (b + (arrayBlocks T P index arr).card) π := by
  intro hlt σ hσ
  have hrest : ∀ u ∈ σ, decide (u ∉ arrayBlocks T P index arr) = false →
      u ∈ arrayBlocks T P index arr := by
    intro u _ hu
    simpa using hu
  have hkept : ∀ u ∈ (since σ tag).filter fun u => u ∉ arrayBlocks T P index arr,
      OfArrays T P index S u := by
    intro u hu
    obtain ⟨hu, hout⟩ := List.mem_filter.mp hu
    obtain ⟨x, hx, hux⟩ := hσ u (mem_of_mem_since hu)
    rcases ConflictSet.mem_insert.mp hx with rfl | hx
    · exact absurd hux (by simpa using hout)
    · exact ⟨x, hx, hux⟩
  have hsplit := recency_append_le hrest π tag
  have hbound := h (by omega) _ hkept
  omega

/-- A bound for a subset is one for `S` if the other arrays have no blocks. -/
theorem ValidBound.extend {E S : ConflictSet} {b : ℕ} {π : List ℕ}
    (h : ValidBound T P index tag E b π)
    (hS : ∀ arr ∈ S, arr ∉ E → arrayBlocks T P index arr = ∅) :
    ValidBound T P index tag S b π := by
  intro hlt σ hσ
  apply h hlt σ
  intro u hu
  obtain ⟨arr, harr, hmem⟩ := hσ u hu
  by_cases hE : arr ∈ E
  · exact ⟨arr, hE, hmem⟩
  · rw [hS arr harr hE] at hmem
    exact absurd hmem (Finset.notMem_empty u)

/-! ## The bound of a conflict set -/

/-- The loop of `getBound` returns its start value or the bound of an entry for a
subset; no bound is adjusted. -/
theorem extrapolate_eq (S : ConflictSet) (l : List (ConflictSet × ℕ)) (ret : ℕ) :
    extrapolate T P S ret l = ret ∨ ∃ e ∈ l, e.1 ⊆ S ∧ extrapolate T P S ret l = e.2 := by
  induction l generalizing ret with
  | nil => exact .inl rfl
  | cons e l ih =>
    obtain ⟨cs, bound⟩ := e
    rw [extrapolate]
    by_cases hsub : cs ⊆ S
    · rw [if_neg (not_not.mpr hsub), ConflictSet.difference_of_subset hsub, adjustBound]
      dsimp only
      split_ifs with hlt
      · rcases ih bound with hret | ⟨e, he, hES, hret⟩
        · exact .inr ⟨_, List.mem_cons_self, hsub, hret⟩
        · exact .inr ⟨e, List.mem_cons_of_mem _ he, hES, hret⟩
      · exact (ih ret).imp_right fun ⟨e, he, h⟩ => ⟨e, List.mem_cons_of_mem _ he, h⟩
    · rw [if_pos hsub]
      exact (ih ret).imp_right fun ⟨e, he, h⟩ => ⟨e, List.mem_cons_of_mem _ he, h⟩

/-- Where it is covered, the bound of a conflict set is valid. -/
theorem getBound_spec (hA : T.associativity < 256) {m : MustAgeConflictPowerset}
    {K : Set (List ℕ)} (h : Describes T P index tag m K) {S : ConflictSet}
    (hS : BoundCovered T P index m S) :
    m.getBound T P S ≤ T.associativity ∧
      ∀ π ∈ K, ValidBound T P index tag S (m.getBound T P S) π := by
  unfold getBound
  cases hfind : m.find? S with
  | some b => exact h.2 _ (mem_of_find? hfind)
  | none =>
    rw [BoundCovered, hfind] at hS
    have hS := hS.resolve_left (by simp)
    have hcases := extrapolate_eq (T := T) (P := P) S m.perCSBound (toWay T.associativity)
    dsimp only
    rcases hcases with hret | ⟨e, he, hES, hret⟩
    · rw [hret, toWay_of_lt hA]
      exact ⟨le_rfl, fun π _ => validBound_ways S π⟩
    · rw [hret]
      obtain ⟨hle, hvalid⟩ := h.2 e he
      refine ⟨hle, fun π hπ hlt => ?_⟩
      exact (hvalid π hπ).extend (hS e he hES hlt) hlt

/-- The minimum of the bounds is one of them. -/
theorem foldl_min_mem (l : List ℕ) (a : ℕ) : l.foldl min a = a ∨ l.foldl min a ∈ l := by
  induction l generalizing a with
  | nil => exact .inl rfl
  | cons x l ih =>
    rw [List.foldl_cons]
    rcases ih (min a x) with h | h
    · rcases min_choice a x with hmin | hmin
      · exact .inl (h.trans hmin)
      · exact .inr (List.mem_cons.mpr (.inl (h.trans hmin)))
    · exact .inr (List.mem_cons_of_mem x h)

/-- The age is the bound of an entry. -/
theorem getAge_eq (hA : T.associativity < 256) {m : MustAgeConflictPowerset} {age : ℕ}
    (h : m.getAge T = .ok age) (hle : ∀ e ∈ m.perCSBound, e.2 ≤ T.associativity) :
    age < T.associativity ∧ ∃ e ∈ m.perCSBound, e.2 = age := by
  unfold getAge at h
  obtain ⟨_, hassert, h⟩ := bind_eq_ok.mp h
  have hne : (m.perCSBound.map Prod.snd).foldl min (toWay T.associativity) ≠ T.associativity := by
    intro heq
    rw [heq] at hassert
    simp [assertThat] at hassert
  rcases foldl_min_mem (m.perCSBound.map Prod.snd) (toWay T.associativity) with hmin | hmin
  · rw [toWay_of_lt hA] at hmin hne
    exact absurd hmin hne
  · obtain ⟨e, he, heq⟩ := List.mem_map.mp hmin
    have hbound := hle e he
    rw [← heq] at h hne
    rw [toWay_of_lt (by omega)] at h
    cases h
    exact ⟨by omega, e, he, rfl⟩

/-! ## The operations -/

theorem isAssociativity_ok {l : List (ConflictSet × ℕ)} (hle : ∀ e ∈ l, e.2 ≤ T.associativity) :
    allAssociativity T l = .ok (l.all fun e => e.2 == T.associativity) := by
  induction l with
  | nil => rfl
  | cons e l ih =>
    have hfirst := hle e List.mem_cons_self
    rw [allAssociativity, assertThat_of (decide_eq_true hfirst), ok_bind,
      ih fun x hx => hle x (List.mem_cons_of_mem e hx)]
    by_cases he : e.2 = T.associativity <;> simp [he]

theorem ageBound_one {b : ℕ} (hA : T.associativity < 256) (hpos : 0 < T.associativity)
    (hle : b ≤ T.associativity) : ageBound T 1 b = min (b + 1) T.associativity := by
  have hlast : toUnsigned (T.associativity + 2 ^ 32 - 1) = T.associativity - 1 := by
    unfold toUnsigned
    omega
  rw [ageBound, hlast]
  split_ifs with h
  · rw [toWay_of_lt hA]
    omega
  · rw [toWay_of_lt (by omega)]
    omega

/-- `ageBy(1)` keeps all entries valid. -/
theorem describes_ageBy (hA : T.associativity < 256) {m : MustAgeConflictPowerset}
    {K : Set (List ℕ)} (h : Describes T P index tag m K) (hassert : m.isAssociativity T = .ok false)
    {K' : Set (List ℕ)} (hK : ∀ π' ∈ K', ∃ π ∈ K, MayAccess Set.univ π π') :
    ∃ m', m.ageBy T 1 = .ok m' ∧ Describes T P index tag m' K' := by
  have hpos : 0 < T.associativity := by
    rw [isAssociativity, isAssociativity_ok fun e he => (h.2 e he).1] at hassert
    simp only [Except.ok.injEq, List.all_eq_false] at hassert
    obtain ⟨e, he, hne⟩ := hassert
    have hle := (h.2 e he).1
    have hne : e.2 ≠ T.associativity := by simpa using hne
    omega
  refine ⟨m.mapBounds (ageBound T 1), ?_, ?_, ?_⟩
  · rw [ageBy, hassert]
    rfl
  · simpa [mapBounds] using h.1
  · intro e' he'
    obtain ⟨e, he, rfl⟩ := List.mem_map.mp he'
    obtain ⟨hle, hvalid⟩ := h.2 e he
    simp only [ageBound_one hA hpos hle]
    refine ⟨min_le_right _ _, fun π' hπ' hlt => ?_⟩
    obtain ⟨π, hπ, hstep⟩ := hK π' hπ'
    rw [min_eq_left (by omega)] at hlt ⊢
    exact (hvalid π hπ).succ hstep hlt

/-- The entries that ageing one entry by an array can leave. -/
theorem mem_ageEntry (hA : T.associativity < 256) (hT : T.Geometry) {m : MustAgeConflictPowerset}
    {arr : GlobalVariable} {S : ConflictSet} {b : ℕ} (hb : b < T.associativity)
    {e : ConflictSet × ℕ} (he : e ∈ (ageEntry T P arr m S b).perCSBound) :
    e ∈ m.perCSBound ∧ e.1 ≠ S ∨ e = (S, b + 1) ∨
      e = (S.insert arr, min (b + getPerSetSize T P arr) T.associativity) := by
  have hsize := getPerSetSize_lt hT (P := P) arr
  have hsum : toUnsigned (b + getPerSetSize T P arr) = b + getPerSetSize T P arr :=
    toUnsigned_of_lt (by omega)
  have hmin : toWay (min (b + getPerSetSize T P arr) T.associativity) =
      min (b + getPerSetSize T P arr) T.associativity := toWay_of_lt (by omega)
  have hsucc : toWay (b + 1) = b + 1 := toWay_of_lt (by omega)
  have haged {e : ConflictSet × ℕ} (he : e ∈ (m.setBound S (b + 1)).perCSBound) :
      e ∈ m.perCSBound ∧ e.1 ≠ S ∨ e = (S, b + 1) ∨
        e = (S.insert arr, min (b + getPerSetSize T P arr) T.associativity) :=
    (mem_setBound he).symm.imp_right .inl
  unfold ageEntry at he
  dsimp only at he
  rw [hsum, hmin, hsucc] at he
  have hset (he : e ∈ ((m.setBound S (b + 1)).setBound (S.insert arr)
      (min (b + getPerSetSize T P arr) T.associativity)).perCSBound) :
      e ∈ m.perCSBound ∧ e.1 ≠ S ∨ e = (S, b + 1) ∨
        e = (S.insert arr, min (b + getPerSetSize T P arr) T.associativity) := by
    rcases mem_setBound he with rfl | ⟨he, _⟩
    · exact .inr (.inr rfl)
    · exact haged he
  split at he
  · exact hset he
  · split_ifs at he
    · exact hset he
    · exact haged he

theorem ageEntry_ne_nil (arr : GlobalVariable) (m : MustAgeConflictPowerset) (S : ConflictSet)
    (b : ℕ) : (ageEntry T P arr m S b).perCSBound ≠ [] := by
  unfold ageEntry
  dsimp only
  split
  · exact setBound_ne_nil _ _ _
  · split_ifs
    · exact setBound_ne_nil _ _ _
    · exact setBound_ne_nil _ _ _

/-- The entries that the loop over `rest` has not aged yet are those of `rest`; all
others are valid after the access. -/
theorem ageByArray_loop (hA : T.associativity < 256) (hT : T.Geometry) {arr : GlobalVariable}
    {K K' : Set (List ℕ)} (hK : ∀ π' ∈ K', ∃ π ∈ K, MayAccess (arrayBlocks T P index arr) π π')
    {rest : List (ConflictSet × ℕ)}
    (hrest : ∀ e ∈ rest, e.2 ≤ T.associativity ∧ ∀ π ∈ K, ValidBound T P index tag e.1 e.2 π)
    {aged : MustAgeConflictPowerset} (hne : aged.perCSBound ≠ [])
    (haged : ∀ e ∈ aged.perCSBound, e ∈ rest ∨
      e.2 ≤ T.associativity ∧ ∀ π' ∈ K', ValidBound T P index tag e.1 e.2 π') :
    Describes T P index tag (rest.foldl (fun aged e =>
      if arr ∉ e.1 ∧ e.2 < T.associativity then ageEntry T P arr aged e.1 e.2 else aged) aged)
      K' := by
  induction rest generalizing aged with
  | nil => exact ⟨hne, fun e he => (haged e he).resolve_left List.not_mem_nil⟩
  | cons x rest ih =>
    obtain ⟨S, b⟩ := x
    obtain ⟨hle, hvalid⟩ := hrest (S, b) List.mem_cons_self
    rw [List.foldl_cons]
    apply ih fun e he => hrest e (List.mem_cons_of_mem _ he)
    · split_ifs
      · exact ageEntry_ne_nil arr aged S b
      · exact hne
    · intro e he
      split_ifs at he with hage
      · rcases mem_ageEntry hA hT hage.2 he with ⟨he, hS⟩ | rfl | rfl
        · apply (haged e he).imp_left
          intro hmem
          apply (List.mem_cons.mp hmem).resolve_left
          rintro rfl
          exact hS rfl
        · right
          refine ⟨hage.2, fun π' hπ' => ?_⟩
          obtain ⟨π, hπ, hstep⟩ := hK π' hπ'
          exact (hvalid π hπ).succ hstep
        · right
          refine ⟨min_le_right _ _, fun π' hπ' hlt => ?_⟩
          obtain ⟨π, hπ, hstep⟩ := hK π' hπ'
          -- the access itself is one of those to the array
          have hinsert := ((hvalid π hπ).insert arr).access
            (ConflictSet.mem_insert.mpr (.inl rfl)) hstep
          have hblocks := card_arrayBlocks_le hT (P := P) index arr
          rw [min_eq_left (by omega)] at hlt ⊢
          exact hinsert.mono (Nat.add_le_add_left hblocks b) hlt
      · rcases haged e he with hmem | hgood
        · rcases List.mem_cons.mp hmem with rfl | hmem
          · right
            refine ⟨hle, fun π' hπ' hlt => ?_⟩
            obtain ⟨π, hπ, hstep⟩ := hK π' hπ'
            have harr : arr ∈ S := by
              by_contra harr
              exact hage ⟨harr, hlt⟩
            exact (hvalid π hπ).access harr hstep hlt
          · exact .inl hmem
        · exact .inr hgood

/-- `ageBy(arr)` keeps all entries valid. -/
theorem describes_ageByArray (hA : T.associativity < 256) (hT : T.Geometry) {arr : GlobalVariable}
    {m : MustAgeConflictPowerset} {K K' : Set (List ℕ)} (h : Describes T P index tag m K)
    (hK : ∀ π' ∈ K', ∃ π ∈ K, MayAccess (arrayBlocks T P index arr) π π') :
    Describes T P index tag (m.ageByArray T P arr) K' :=
  ageByArray_loop hA hT hK h.2 h.1 fun _ he => .inl he

/-! ## Joins -/

/-- The maximum of a bound from either side. -/
theorem validBound_max (hA : T.associativity < 256) {S : ConflictSet} {b b' : ℕ}
    {K L : Set (List ℕ)}
    (h : b ≤ T.associativity ∧ ∀ π ∈ K, ValidBound T P index tag S b π)
    (h' : b' ≤ T.associativity ∧ ∀ π ∈ L, ValidBound T P index tag S b' π) :
    toWay (max b b') ≤ T.associativity ∧
      ∀ π ∈ K ∪ L, ValidBound T P index tag S (toWay (max b b')) π := by
  have hle : max b b' ≤ T.associativity := max_le h.1 h'.1
  rw [toWay_of_lt (by omega)]
  refine ⟨hle, fun π hπ => ?_⟩
  rcases hπ with hπ | hπ
  · exact (h.2 π hπ).mono (le_max_left b b')
  · exact (h'.2 π hπ).mono (le_max_right b b')

/-- The walk ends with valid entries, and with at least one. -/
theorem joinLoop_spec (hA : T.associativity < 256) {m other : MustAgeConflictPowerset}
    {K L : Set (List ℕ)} (hm : Describes T P index tag m K)
    (hother : Describes T P index tag other L) (hcovered : JoinCovered T P index m other)
    {n : ℕ} {xs ys : List (ConflictSet × ℕ)} (hn : xs.length + ys.length ≤ n)
    (hxs : xs ⊆ m.perCSBound) (hys : ys ⊆ other.perCSBound) {newBounds : MustAgeConflictPowerset}
    (hnew : ∀ e ∈ newBounds.perCSBound,
      e.2 ≤ T.associativity ∧ ∀ π ∈ K ∪ L, ValidBound T P index tag e.1 e.2 π)
    (hne : xs ≠ [] ∨ newBounds.perCSBound ≠ []) :
    ∃ u, joinLoop T P m other n xs ys newBounds = .ok u ∧ Describes T P index tag u (K ∪ L) := by
  have hset {S : ConflictSet} {b : ℕ}
      (hb : b ≤ T.associativity ∧ ∀ π ∈ K ∪ L, ValidBound T P index tag S b π)
      {newBounds : MustAgeConflictPowerset}
      (hnew : ∀ e ∈ newBounds.perCSBound,
        e.2 ≤ T.associativity ∧ ∀ π ∈ K ∪ L, ValidBound T P index tag e.1 e.2 π) :
      ∀ e ∈ (newBounds.setBound S b).perCSBound,
        e.2 ≤ T.associativity ∧ ∀ π ∈ K ∪ L, ValidBound T P index tag e.1 e.2 π := by
    intro e he
    rcases mem_setBound he with rfl | ⟨he, _⟩
    · exact hb
    · exact hnew e he
  induction n generalizing xs ys newBounds with
  | zero =>
    obtain ⟨rfl, rfl⟩ : xs = [] ∧ ys = [] := by
      constructor <;> apply List.eq_nil_of_length_eq_zero <;> omega
    exact ⟨newBounds, rfl, hne.resolve_left (absurd rfl), hnew⟩
  | succ n ih =>
    have hleft {x : ConflictSet × ℕ} (hx : x ∈ m.perCSBound) :=
      validBound_max hA (hm.2 x hx) (getBound_spec hA hother (hcovered.1 x hx))
    have hright {y : ConflictSet × ℕ} (hy : y ∈ other.perCSBound) :=
      validBound_max hA (getBound_spec hA hm (hcovered.2 y hy)) (hother.2 y hy)
    cases xs with
    | nil =>
      cases ys with
      | nil => exact ⟨newBounds, rfl, hne.resolve_left (absurd rfl), hnew⟩
      | cons y ys =>
        obtain ⟨hy, hys⟩ := List.cons_subset.mp hys
        exact ih (by simpa using hn) hxs hys (hset (hright hy) hnew)
          (.inr (setBound_ne_nil _ _ _))
    | cons x xs =>
      obtain ⟨hx, hxs⟩ := List.cons_subset.mp hxs
      cases ys with
      | nil =>
        exact ih (by simpa using hn) hxs hys (hset (hleft hx) hnew)
          (.inr (setBound_ne_nil _ _ _))
      | cons y ys =>
        obtain ⟨hy, hysub⟩ := List.cons_subset.mp hys
        simp only [List.length_cons] at hn
        rw [joinLoop]
        split_ifs with hlt hgt
        · exact ih (by simp only [List.length_cons]; omega) hxs hys (hset (hleft hx) hnew)
            (.inr (setBound_ne_nil _ _ _))
        · exact ih (by simp only [List.length_cons]; omega) (List.cons_subset.mpr ⟨hx, hxs⟩) hysub
            (hset (hright hy) hnew) (.inr (setBound_ne_nil _ _ _))
        · have heq := ConflictSet.eq_of_not_lt hlt hgt
          have hboth := validBound_max hA (hm.2 x hx) (heq ▸ hother.2 y hy)
          exact ih (by omega) hxs hysub (hset hboth hnew) (.inr (setBound_ne_nil _ _ _))

/-- A covered join keeps all entries valid. -/
theorem describes_join (hA : T.associativity < 256) {m other : MustAgeConflictPowerset}
    {K L : Set (List ℕ)} (hm : Describes T P index tag m K)
    (hother : Describes T P index tag other L) (hcovered : JoinCovered T P index m other) :
    ∃ u, m.join T P other = .ok u ∧ Describes T P index tag u (K ∪ L) := by
  have hempty : ∀ e ∈ (⟨[], .nil⟩ : MustAgeConflictPowerset).perCSBound,
      e.2 ≤ T.associativity ∧ ∀ π ∈ K ∪ L, ValidBound T P index tag e.1 e.2 π :=
    fun e he => absurd he List.not_mem_nil
  obtain ⟨u, hu, hdescribes⟩ := joinLoop_spec hA hm hother hcovered le_rfl (List.Subset.refl _)
    (List.Subset.refl _) hempty (.inl hm.1)
  refine ⟨u, ?_, hdescribes⟩
  have hne : (!u.perCSBound.isEmpty) = true := by simpa using hdescribes.1
  rw [join, hu, ok_bind, assertThat_of hne]
  rfl

/-! ## Runs -/

/-- The initial entry is valid right after the access to the tag. -/
theorem describes_make : Describes T P index tag make {[tag]} := by
  refine ⟨List.cons_ne_nil _ _, fun e he => ?_⟩
  rw [List.mem_singleton.mp he]
  refine ⟨Nat.zero_le _, ?_⟩
  rintro _ rfl _ σ hσ
  have hnone : σ = [] := by
    cases σ with
    | nil => rfl
    | cons u σ =>
      obtain ⟨arr, harr, _⟩ := hσ u List.mem_cons_self
      exact absurd harr List.not_mem_nil
  rw [hnone, List.nil_append, recency_cons_self]

theorem describes_step (hA : T.associativity < 256) (hT : T.Geometry) {op : AgeOp}
    {m : MustAgeConflictPowerset} {K : Set (List ℕ)} (h : Describes T P index tag m K)
    (hop : Asserted T op m K) : ∃ m', (analysis T P index tag).step op m = .ok m' ∧
      Describes T P index tag m' ((analysis T P index tag).image op K) := by
  cases op with
  | ageByOne => exact describes_ageBy hA h hop fun π' hπ' => hπ'
  | ageByArray arr => exact ⟨_, rfl, describes_ageByArray hA hT h fun π' hπ' => hπ'⟩

/-- The access to the tag stays part of the path. -/
theorem mem_of_mem_image {op : AgeOp} {K : Set (List ℕ)} (h : ∀ π ∈ K, tag ∈ π) :
    ∀ π ∈ (analysis T P index tag).image op K, tag ∈ π := by
  have hstays {lines : Set ℕ} {π π' : List ℕ} (hπ : π ∈ K) (hstep : MayAccess lines π π') :
      tag ∈ π' := by
    rcases hstep with rfl | ⟨u, _, rfl⟩
    · exact h _ hπ
    · exact List.mem_cons_of_mem u (h π hπ)
  rintro π' ⟨π, hπ, hstep⟩
  cases op with
  | ageByOne => exact hstays hπ hstep
  | ageByArray arr => exact hstays hπ hstep

/-- Every run whose joins are covered has valid entries; the bound of a covered
conflict set is valid, and the age bounds the position of the line. -/
theorem powersetRun_sound (T : CacheTraits) (P : StaticAddressProvider) (index tag : ℕ)
    (hT : T.Geometry) (hA : T.associativity < 256) (r : Collecting.Run Unit AgeOp)
    (hassert : (analysis T P index tag).Every (Asserted T) r)
    (hjoins : (analysis T P index tag).EveryJoin (JoinCovered T P index) r) :
    ∃ m, (analysis T P index tag).eval r = .ok m ∧
      ∀ π ∈ (analysis T P index tag).collect r,
        (∀ e ∈ m.perCSBound, ValidBound T P index tag e.1 e.2 π) ∧
        (∀ S, BoundCovered T P index m S → ValidBound T P index tag S (m.getBound T P S) π) ∧
        ∀ age, m.getAge T = .ok age →
          ∀ c : CacheSet ℕ T.associativity, (c.run π).Within tag age := by
  have hrun : ∃ m, (analysis T P index tag).eval r = .ok m ∧
      Describes T P index tag m ((analysis T P index tag).collect r) ∧
      ∀ π ∈ (analysis T P index tag).collect r, tag ∈ π := by
    apply Collecting.Analysis.Run.sound_of_joins
      (fun m K => Describes T P index tag m K ∧ ∀ π ∈ K, tag ∈ π) _ _ _ r hassert hjoins
    · exact fun _ => ⟨describes_make, fun π hπ => hπ ▸ List.mem_singleton_self tag⟩
    · intro op m K ⟨hm, htag⟩ hop
      obtain ⟨m', hm', hdescribes⟩ := describes_step hA hT hm hop
      exact ⟨m', hm', hdescribes, mem_of_mem_image htag⟩
    · rintro m other K L ⟨hm, htag⟩ ⟨hother, htag'⟩ hcovered
      obtain ⟨u, hu, hdescribes⟩ := describes_join hA hm hother hcovered
      exact ⟨u, hu, hdescribes, fun π hπ => hπ.elim (htag π) (htag' π)⟩
  obtain ⟨m, hm, hdescribes, htag⟩ := hrun
  refine ⟨m, hm, fun π hπ => ⟨fun e he => (hdescribes.2 e he).2 π hπ,
    fun S hS => (getBound_spec hA hdescribes hS).2 π hπ, ?_⟩⟩
  intro age hage c
  obtain ⟨hlt, e, he, rfl⟩ := getAge_eq hA hage fun e he => (hdescribes.2 e he).1
  have hrecency : recency π tag ≤ e.2 :=
    (hdescribes.2 e he).2 π hπ hlt [] fun u hu => absurd hu List.not_mem_nil
  exact (c.within_run (htag π hπ) (by omega)).mono hrecency

/-- A tag that is aged by an array on either branch. -/
theorem powersetRun_sound_fourWays :
    let T := fourSets 4
    let P : StaticAddressProvider := .single 64 4 (by decide) (by decide)
    let branch : Collecting.Run Unit AgeOp := .step (.step (.start ()) (.ageByArray 0)) .ageByOne
    let r := branch.join (.step (.start ()) (.ageByArray 0))
    ∃ m, (analysis T P 0 3).eval r = .ok m ∧
      ∀ π ∈ (analysis T P 0 3).collect r,
        (∀ e ∈ m.perCSBound, ValidBound T P 0 3 e.1 e.2 π) ∧
        (∀ S, BoundCovered T P 0 m S → ValidBound T P 0 3 S (m.getBound T P S) π) ∧
        ∀ age, m.getAge T = .ok age →
          ∀ c : CacheSet ℕ T.associativity, (c.run π).Within 3 age := by
  intro T P branch r
  apply powersetRun_sound T P 0 3 (geometry_fourSets 4) (by decide) r
  · refine ⟨⟨⟨trivial, fun _ _ => trivial⟩, ?_⟩, trivial, fun _ _ => trivial⟩
    intro m hm
    cases hm
    change isAssociativity T (make.ageByArray T P 0) = .ok false
    decide
  · refine ⟨trivial, trivial, ?_⟩
    intro m other hm hother
    have harray : make.ageByArray T P 0 =
        ⟨[(.empty, 1), (⟨[0], by decide⟩, 1)], by decide⟩ := by decide
    have haged : (make.ageByArray T P 0).ageBy T 1 =
        .ok ⟨[(.empty, 2), (⟨[0], by decide⟩, 2)], by decide⟩ := by
      rw [harray]
      decide +kernel
    have hm := haged.symm.trans hm
    cases hm
    cases hother
    exact ⟨fun e he => .inl (by revert e; decide), fun e he => .inl (by revert e; decide)⟩

/-- One branch has an entry for an array that the other takes from the empty set,
where nothing was paid for it. -/
theorem joinedBound_exceeded :
    let T := fourSets 4
    let P : StaticAddressProvider := .single 64 4 (by decide) (by decide)
    let joined : Collecting.Run Unit AgeOp :=
      (Collecting.Run.step (.start ()) .ageByOne).join (.step (.start ()) (.ageByArray 0))
    let r : Collecting.Run Unit AgeOp := .step joined (.ageByArray 0)
    (∃ m, (analysis T P 0 3).eval joined = .ok m ∧
      ∃ π ∈ (analysis T P 0 3).collect joined,
        ∃ e ∈ m.perCSBound, ¬ ValidBound T P 0 3 e.1 e.2 π) ∧
    ∃ m, (analysis T P 0 3).eval r = .ok m ∧ ∃ π ∈ (analysis T P 0 3).collect r,
      ∃ age, m.getAge T = .ok age ∧ ∃ c : CacheSet ℕ 4, ¬ (c.run π).Within 3 age := by
  intro T P joined r
  have hblock : 1 ∈ arrayBlocks T P 0 0 := mem_arrayBlocks.mpr ⟨64, by decide⟩
  have hpath : [7, 3] ∈ (analysis T P 0 3).collect joined :=
    .inl ⟨[3], rfl, .inr ⟨7, trivial, rfl⟩⟩
  constructor
  · refine ⟨⟨[(.empty, 1), (⟨[0], by decide⟩, 1)], by decide⟩, by decide, [7, 3], hpath,
      (⟨[0], by decide⟩, 1), by decide, ?_⟩
    intro hvalid
    have hle := hvalid (by decide) [1] fun u hu =>
      ⟨0, List.mem_singleton_self 0, by rwa [List.mem_singleton.mp hu]⟩
    exact absurd hle (by decide)
  · refine ⟨⟨[(.empty, 2), (⟨[0], by decide⟩, 1)], by decide⟩, by decide, [1, 7, 3],
      ⟨[7, 3], hpath, .inr ⟨1, hblock, rfl⟩⟩, 1, by decide, .empty, ?_⟩
    rintro ⟨_, hage⟩
    exact absurd hage (by decide)

end MustAgeConflictPowerset

end Llvmta
