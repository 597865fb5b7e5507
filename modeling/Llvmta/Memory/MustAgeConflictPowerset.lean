import Llvmta.Library.CheckedVector
import Llvmta.Memory.StaticAddressProvider

/-!
# Ages with a bound for each conflict set

An age of the array-aware must analysis that maps conflict sets to bounds. The
bound of a set is meant to hold after any accesses to the arrays of the set, so
that each of the bounds is one for the age itself. `getBound` looks up the bound of
a set, or computes one from the entries for its subsets.
-/

namespace Llvmta

open Checked

/-- `std::set<const GlobalVariable *>`, in its iteration order. -/
structure ConflictSet where
  arrays : List GlobalVariable
  sorted : arrays.Pairwise (· < ·)
  deriving DecidableEq, Repr

namespace ConflictSet

def empty : ConflictSet := ⟨[], .nil⟩

instance : Membership GlobalVariable ConflictSet := ⟨fun S arr => arr ∈ S.arrays⟩

instance (arr : GlobalVariable) (S : ConflictSet) : Decidable (arr ∈ S) :=
  inferInstanceAs (Decidable (arr ∈ S.arrays))

instance : HasSubset ConflictSet := ⟨fun E S => E.arrays ⊆ S.arrays⟩

instance (E S : ConflictSet) : Decidable (E ⊆ S) :=
  inferInstanceAs (Decidable (E.arrays ⊆ S.arrays))

instance : LT ConflictSet := ⟨fun S S' => S.arrays < S'.arrays⟩

instance (S S' : ConflictSet) : Decidable (S < S') :=
  inferInstanceAs (Decidable (S.arrays < S'.arrays))

theorem mem_def {arr : GlobalVariable} {S : ConflictSet} : arr ∈ S ↔ arr ∈ S.arrays := Iff.rfl

/-- A sorted list with one more element. -/
def insertArray (arr : GlobalVariable) : List GlobalVariable → List GlobalVariable
  | [] => [arr]
  | x :: xs => if arr < x then arr :: x :: xs else if x < arr then x :: insertArray arr xs else x :: xs

theorem mem_insertArray {arr x : GlobalVariable} {l : List GlobalVariable} :
    x ∈ insertArray arr l ↔ x = arr ∨ x ∈ l := by
  induction l with
  | nil => simp [insertArray]
  | cons y l ih =>
    rw [insertArray]
    split_ifs with hlt hgt
    · exact List.mem_cons
    · rw [List.mem_cons, ih, List.mem_cons, or_left_comm]
    · have heq : arr = y := le_antisymm (not_lt.mp hgt) (not_lt.mp hlt)
      subst heq
      simp

theorem sorted_insertArray {arr : GlobalVariable} {l : List GlobalVariable}
    (h : l.Pairwise (· < ·)) : (insertArray arr l).Pairwise (· < ·) := by
  induction l with
  | nil => exact List.pairwise_singleton _ _
  | cons y l ih =>
    obtain ⟨hy, hl⟩ := List.pairwise_cons.mp h
    rw [insertArray]
    split_ifs with hlt hgt
    · apply List.pairwise_cons.mpr ⟨_, h⟩
      intro x hx
      rcases List.mem_cons.mp hx with rfl | hx
      · exact hlt
      · exact hlt.trans (hy x hx)
    · apply List.pairwise_cons.mpr ⟨_, ih hl⟩
      intro x hx
      rcases mem_insertArray.mp hx with rfl | hx
      · exact hgt
      · exact hy x hx
    · exact h

/-- `set.insert(arr)` -/
def insert (S : ConflictSet) (arr : GlobalVariable) : ConflictSet :=
  ⟨insertArray arr S.arrays, sorted_insertArray S.sorted⟩

@[simp] theorem mem_insert {arr x : GlobalVariable} {S : ConflictSet} :
    x ∈ S.insert arr ↔ x = arr ∨ x ∈ S := mem_insertArray

theorem lt_irrefl (S : ConflictSet) : ¬ S < S := List.lt_irrefl S.arrays

theorem lt_trans {S S' S'' : ConflictSet} (h : S < S') (h' : S' < S'') : S < S'' :=
  List.lt_trans h h'

theorem eq_of_not_lt {S S' : ConflictSet} (h : ¬ S < S') (h' : ¬ S' < S) : S = S' := by
  cases S with
  | mk arrays sorted =>
    cases S' with
    | mk arrays' sorted' =>
      have heq : arrays = arrays' := by
        rcases lt_trichotomy arrays arrays' with hlt | heq | hgt
        · exact absurd hlt h
        · exact heq
        · exact absurd hgt h'
      subst heq
      rfl

/-- `std::set_difference(E, S)` -/
def difference (E S : ConflictSet) : List GlobalVariable := E.arrays.filter fun arr => arr ∉ S

theorem difference_of_subset {E S : ConflictSet} (h : E ⊆ S) : difference E S = [] := by
  rw [difference, List.filter_eq_nil_iff]
  intro arr harr
  have hmem : arr ∈ S := h harr
  simpa using hmem

end ConflictSet

/-- `std::map<ConflictSet, PosType> perCSBound`, in the order of the conflict sets. -/
structure MustAgeConflictPowerset where
  perCSBound : List (ConflictSet × ℕ)
  sorted : perCSBound.Pairwise fun e e' => e.1 < e'.1
  deriving DecidableEq, Repr

namespace MustAgeConflictPowerset

variable (T : CacheTraits) (P : StaticAddressProvider)

/-- `MustAgeConflictPowerset()` -/
def make : MustAgeConflictPowerset := ⟨[(.empty, 0)], List.pairwise_singleton _ _⟩

/-- `perCSBound.find(set)` -/
def find? (m : MustAgeConflictPowerset) (set : ConflictSet) : Option ℕ :=
  (m.perCSBound.find? fun e => e.1 == set).map Prod.snd

def insertBound (set : ConflictSet) (bound : ℕ) :
    List (ConflictSet × ℕ) → List (ConflictSet × ℕ)
  | [] => [(set, bound)]
  | e :: rest =>
    if set < e.1 then (set, bound) :: e :: rest
    else if e.1 < set then e :: insertBound set bound rest
    else (set, bound) :: rest

theorem mem_insertBound {set : ConflictSet} {bound : ℕ} {l : List (ConflictSet × ℕ)}
    (hl : l.Pairwise fun e e' => e.1 < e'.1) {e : ConflictSet × ℕ}
    (h : e ∈ insertBound set bound l) : e = (set, bound) ∨ e ∈ l ∧ e.1 ≠ set := by
  induction l with
  | nil => exact .inl (List.mem_singleton.mp h)
  | cons x l ih =>
    obtain ⟨hx, hl⟩ := List.pairwise_cons.mp hl
    have hne {s s' : ConflictSet} (hlt : s < s') : s' ≠ s := by
      rintro rfl
      exact ConflictSet.lt_irrefl _ hlt
    rw [insertBound] at h
    split_ifs at h with hlt hgt
    · refine (List.mem_cons.mp h).imp_right fun h => ⟨h, ?_⟩
      rcases List.mem_cons.mp h with rfl | h
      · exact hne hlt
      · exact hne (ConflictSet.lt_trans hlt (hx e h))
    · rcases List.mem_cons.mp h with rfl | h
      · exact .inr ⟨List.mem_cons_self, (hne hgt).symm⟩
      · exact (ih hl h).imp_right fun ⟨h, hset⟩ => ⟨List.mem_cons_of_mem x h, hset⟩
    · have heq := ConflictSet.eq_of_not_lt hlt hgt
      subst heq
      exact (List.mem_cons.mp h).imp_right fun h => ⟨List.mem_cons_of_mem x h, hne (hx e h)⟩

theorem sorted_insertBound {set : ConflictSet} {bound : ℕ} {l : List (ConflictSet × ℕ)}
    (hl : l.Pairwise fun e e' => e.1 < e'.1) :
    (insertBound set bound l).Pairwise fun e e' => e.1 < e'.1 := by
  induction l with
  | nil => exact List.pairwise_singleton _ _
  | cons x l ih =>
    obtain ⟨hx, hrest⟩ := List.pairwise_cons.mp hl
    rw [insertBound]
    split_ifs with hlt hgt
    · apply List.pairwise_cons.mpr ⟨_, hl⟩
      intro e he
      rcases List.mem_cons.mp he with rfl | he
      · exact hlt
      · exact ConflictSet.lt_trans hlt (hx e he)
    · apply List.pairwise_cons.mpr ⟨_, ih hrest⟩
      intro e he
      rcases mem_insertBound hrest he with rfl | ⟨he, _⟩
      · exact hgt
      · exact hx e he
    · have heq := ConflictSet.eq_of_not_lt hlt hgt
      subst heq
      exact List.pairwise_cons.mpr ⟨hx, hrest⟩

/-- `perCSBound[set] = bound` -/
def setBound (m : MustAgeConflictPowerset) (set : ConflictSet) (bound : ℕ) :
    MustAgeConflictPowerset := ⟨insertBound set bound m.perCSBound, sorted_insertBound m.sorted⟩

theorem mem_setBound {m : MustAgeConflictPowerset} {set : ConflictSet} {bound : ℕ}
    {e : ConflictSet × ℕ} (h : e ∈ (m.setBound set bound).perCSBound) :
    e = (set, bound) ∨ e ∈ m.perCSBound ∧ e.1 ≠ set := mem_insertBound m.sorted h

theorem insertBound_ne_nil (set : ConflictSet) (bound : ℕ) (l : List (ConflictSet × ℕ)) :
    insertBound set bound l ≠ [] := by
  cases l with
  | nil => exact List.cons_ne_nil _ _
  | cons e l =>
    rw [insertBound]
    split_ifs <;> exact List.cons_ne_nil _ _

theorem setBound_ne_nil (m : MustAgeConflictPowerset) (set : ConflictSet) (bound : ℕ) :
    (m.setBound set bound).perCSBound ≠ [] := insertBound_ne_nil set bound m.perCSBound

/-- The map with other bounds for the same conflict sets. -/
def mapBounds (m : MustAgeConflictPowerset) (f : ℕ → ℕ) : MustAgeConflictPowerset :=
  ⟨m.perCSBound.map fun e => (e.1, f e.2), List.pairwise_map.mpr m.sorted⟩

/-- The loop over `diff`, which ends when the bound reaches the associativity. -/
def adjustBound (bound : ℕ) : List GlobalVariable → ℕ
  | [] => bound
  | var :: diff =>
    let perSetSize := getPerSetSize T P var
    if toUnsigned (T.associativity + 2 ^ 32 - perSetSize) ≤ bound then toWay T.associativity
    else adjustBound (toWay (bound + perSetSize)) diff

/-- The loop of `getBound` over the entries. -/
def extrapolate (set : ConflictSet) (ret : ℕ) : List (ConflictSet × ℕ) → ℕ
  | [] => ret
  | (cs, bound) :: rest =>
    if ¬ cs ⊆ set then extrapolate set ret rest
    else
      let adjustedBound := adjustBound T P bound (ConflictSet.difference cs set)
      extrapolate set (if adjustedBound < ret then adjustedBound else ret) rest

def getBound (m : MustAgeConflictPowerset) (set : ConflictSet) : ℕ :=
  match m.find? set with
  | some bound => bound
  | none => extrapolate T P set (toWay T.associativity) m.perCSBound

/-- The loop of `isAssociativity`. -/
def allAssociativity : List (ConflictSet × ℕ) → Except Fault Bool
  | [] => .ok true
  | (_, bound) :: rest => do
    assertThat (decide (bound ≤ T.associativity)) "entry.second <= T->ASSOCIATIVITY"
    if bound ≠ T.associativity then .ok false else allAssociativity rest

def isAssociativity (m : MustAgeConflictPowerset) : Except Fault Bool :=
  allAssociativity T m.perCSBound

def getAge (m : MustAgeConflictPowerset) : Except Fault ℕ := do
  let age := (m.perCSBound.map Prod.snd).foldl min (toWay T.associativity)
  assertThat (decide (age ≠ T.associativity)) "age != T->ASSOCIATIVITY"
  .ok (toWay age)

/-- The body of the loop of `ageBy(arr)` for an entry without `arr`. -/
def ageEntry (arr : GlobalVariable) (m : MustAgeConflictPowerset) (set : ConflictSet)
    (oldBound : ℕ) : MustAgeConflictPowerset :=
  let m := m.setBound set (toWay (oldBound + 1))
  let cSetWithArray := set.insert arr
  let extrapolatedAge := min (toUnsigned (oldBound + getPerSetSize T P arr)) T.associativity
  match m.find? cSetWithArray with
  | none => m.setBound cSetWithArray (toWay extrapolatedAge)
  | some bound =>
    if extrapolatedAge < bound then m.setBound cSetWithArray (toWay extrapolatedAge) else m

/-- `ageBy(const GlobalVariable *arr)`. The entries that the loop inserts contain
`arr`, so that it passes them and the entries it has to age are the original ones. -/
def ageByArray (m : MustAgeConflictPowerset) (arr : GlobalVariable) : MustAgeConflictPowerset :=
  m.perCSBound.foldl (fun aged e =>
    if arr ∉ e.1 ∧ e.2 < T.associativity then ageEntry T P arr aged e.1 e.2 else aged) m

def ageBound (amount bound : ℕ) : ℕ :=
  if toUnsigned (T.associativity + 2 ^ 32 - amount) ≤ bound then toWay T.associativity
  else toWay (bound + amount)

/-- `ageBy(unsigned amount)` -/
def ageBy (m : MustAgeConflictPowerset) (amount : ℕ) : Except Fault MustAgeConflictPowerset := do
  assertThat (!(← m.isAssociativity T)) "!isAssociativity()"
  .ok (m.mapBounds (ageBound T amount))

/-- The walk over both maps. `m` and `other` are the maps as they were before it. -/
def joinLoop (m other : MustAgeConflictPowerset) :
    (n : ℕ) → (xs ys : List (ConflictSet × ℕ)) → MustAgeConflictPowerset →
      Except Fault MustAgeConflictPowerset
  | _, [], [], newBounds => .ok newBounds
  | 0, _, _, _ => .error .divergence
  | n + 1, x :: xs, [], newBounds =>
    joinLoop m other n xs [] (newBounds.setBound x.1 (toWay (max x.2 (other.getBound T P x.1))))
  | n + 1, [], y :: ys, newBounds =>
    joinLoop m other n [] ys (newBounds.setBound y.1 (toWay (max (m.getBound T P y.1) y.2)))
  | n + 1, x :: xs, y :: ys, newBounds =>
    if x.1 < y.1 then
      joinLoop m other n xs (y :: ys)
        (newBounds.setBound x.1 (toWay (max x.2 (other.getBound T P x.1))))
    else if y.1 < x.1 then
      joinLoop m other n (x :: xs) ys
        (newBounds.setBound y.1 (toWay (max (m.getBound T P y.1) y.2)))
    else joinLoop m other n xs ys (newBounds.setBound x.1 (toWay (max x.2 y.2)))

def join (m other : MustAgeConflictPowerset) : Except Fault MustAgeConflictPowerset := do
  let joined ← joinLoop T P m other (m.perCSBound.length + other.perCSBound.length)
    m.perCSBound other.perCSBound ⟨[], .nil⟩
  assertThat (!joined.perCSBound.isEmpty) "this->perCSBound.size() > 0"
  .ok joined

end MustAgeConflictPowerset

end Llvmta
