import Llvmta.Memory.Crpd.CacheRelatedPreemptionDelay
import Llvmta.Memory.ImplicitSet

/-!
# Constrained ages

The constrained age of a useful block counts the accesses to other lines of its set on a
path where it is not evicted. The ages of the blocks that are not useful are zero. Where
no block is useful, or the access is not known, all ages are given up.
-/

namespace Llvmta

/-- The ages of a cache set. At top there are none. -/
structure ConstrainedAges where
  top : Bool
  CAges : OrderedMap TagType ℕ
  empty_of_top : top = true → CAges = .empty

namespace ConstrainedAges

variable {s s' t t' : ConstrainedAges}

def setTop : ConstrainedAges := ⟨true, .empty, fun _ => rfl⟩

/-- The state with these ages that is not top. -/
def ofAges (CAges : OrderedMap TagType ℕ) : ConstrainedAges :=
  ⟨false, CAges, fun h => absurd h Bool.false_ne_true⟩

def new : ConstrainedAges := ofAges .empty

def getConstrainedAge (s : ConstrainedAges) (tag : TagType) : ℕ := (s.CAges.find? tag).getD 0

/-- The constrained age after an access to another tag, of unconstrained age `UAge`. -/
def updateAge (ASSOCIATIVITY UAge CAge : ℕ) : ℕ :=
  if CAge ≥ UAge ∨ CAge = ASSOCIATIVITY - 1 then CAge else CAge + 1

/-- `UCBs` and `UAge` are the additional information of the program point. -/
def update (ASSOCIATIVITY : ℕ) (s : ConstrainedAges) (tag : TagType) (UCBs : ImplicitSet)
    (UAge : ℕ) : ConstrainedAges :=
  if s.top then s
  else if UCBs.size = 0 then setTop
  else ofAges (UCBs.elements.foldl (fun TempCAges U =>
    TempCAges.insert U (if U = tag then 0
      else updateAge ASSOCIATIVITY UAge (s.getConstrainedAge U))) .empty)

def potentialUpdate (_ : ConstrainedAges) : ConstrainedAges := setTop

/-- The first loop of the join: the ages of common tags are raised. -/
def raiseAge (Other : OrderedMap TagType ℕ) (CAges : OrderedMap TagType ℕ) (KV : TagType × ℕ) :
    OrderedMap TagType ℕ :=
  match Other.find? KV.1 with
  | some OtherAge => if KV.2 < OtherAge then CAges.insert KV.1 OtherAge else CAges
  | none => CAges

/-- The second loop of the join: the ages of the other tags are added. -/
def addAge (CAges : OrderedMap TagType ℕ) (KV : TagType × ℕ) : OrderedMap TagType ℕ :=
  match CAges.find? KV.1 with
  | some _ => CAges
  | none => CAges.insert KV.1 KV.2

def join (s Other : ConstrainedAges) : ConstrainedAges :=
  if s.top then s
  else if Other.top then setTop
  else ofAges (Other.CAges.entries.foldl addAge
    (s.CAges.entries.foldl (raiseAge Other.CAges) s.CAges))

@[simp] theorem top_ofAges (m : OrderedMap TagType ℕ) : (ofAges m).top = false := rfl

@[simp] theorem getConstrainedAge_ofAges (m : OrderedMap TagType ℕ) (tag : TagType) :
    (ofAges m).getConstrainedAge tag = (m.find? tag).getD 0 := rfl

theorem getConstrainedAge_of_top (h : s.top = true) (tag : TagType) :
    s.getConstrainedAge tag = 0 := by
  simp [getConstrainedAge, s.empty_of_top h]

theorem updateAge_mono {A UAge a b : ℕ} (h : a ≤ b) :
    updateAge A UAge a ≤ updateAge A UAge b := by
  unfold updateAge
  split_ifs <;> omega

/-- The ages after an update of a state that is not top, where some block is useful. -/
theorem getConstrainedAge_update {A : ℕ} {UCBs : ImplicitSet} {UAge : ℕ} {tag tag' : TagType}
    (htop : s.top = false) (hsize : UCBs.size ≠ 0) :
    (s.update A tag UCBs UAge).getConstrainedAge tag' =
      if tag' ∈ UCBs.elements then
        if tag' = tag then 0 else updateAge A UAge (s.getConstrainedAge tag')
      else 0 := by
  rw [update, if_neg (by simp [htop]), if_neg hsize, getConstrainedAge_ofAges,
    OrderedMap.find?_foldl_insert]
  split_ifs <;> rfl

theorem find?_raiseAge (Other CAges : OrderedMap TagType ℕ) (KV : TagType × ℕ) (tag : TagType) :
    (raiseAge Other CAges KV).find? tag =
      if KV.1 = tag then ((Other.find? tag).filter (KV.2 < ·)).or (CAges.find? tag)
      else CAges.find? tag := by
  unfold raiseAge
  by_cases htag : KV.1 = tag
  · subst htag
    cases Other.find? KV.1 with
    | none => simp
    | some OtherAge =>
      by_cases hlt : KV.2 < OtherAge <;> simp [hlt, Option.filter_some]
  · cases Other.find? KV.1 with
    | none => simp [htag]
    | some OtherAge =>
      by_cases hlt : KV.2 < OtherAge <;> simp [hlt, htag, OrderedMap.find?_insert]

theorem find?_addAge (CAges : OrderedMap TagType ℕ) (KV : TagType × ℕ) (tag : TagType) :
    (addAge CAges KV).find? tag =
      if KV.1 = tag then (CAges.find? tag).or (some KV.2) else CAges.find? tag := by
  unfold addAge
  by_cases htag : KV.1 = tag
  · subst htag
    cases hfind : CAges.find? KV.1 with
    | none => simp
    | some Age => simp [hfind]
  · cases CAges.find? KV.1 with
    | none => simp [htag, OrderedMap.find?_insert]
    | some Age => simp [htag]

/-- The join of two states that are not top has the higher ages. -/
theorem getConstrainedAge_join (hs : s.top = false) (ht : t.top = false) (tag : TagType) :
    (s.join t).getConstrainedAge tag =
      max (s.getConstrainedAge tag) (t.getConstrainedAge tag) := by
  rw [join, if_neg (by simp [hs]), if_neg (by simp [ht]), getConstrainedAge_ofAges,
    OrderedMap.find?_foldl_entries (v := fun _ Age o => o.or (some Age)) find?_addAge
      t.CAges.sorted,
    OrderedMap.find?_foldl_entries
      (v := fun tag Age o => ((t.CAges.find? tag).filter (Age < ·)).or o)
      (find?_raiseAge t.CAges) s.CAges.sorted]
  have hfind (m : OrderedMap TagType ℕ) : OrderedMap.findEntry tag m.entries = m.find? tag := rfl
  rw [hfind, hfind]
  unfold getConstrainedAge
  cases s.CAges.find? tag with
  | none => cases t.CAges.find? tag <;> simp
  | some a =>
    cases t.CAges.find? tag with
    | none => simp
    | some b => by_cases hlt : a < b <;> simp [hlt, Option.filter_some] <;> omega

/-- The ages of one state are not above those of another, and the other is top only if
it is. -/
structure Below (s s' : ConstrainedAges) : Prop where
  top : s'.top = true → s.top = true
  age : ∀ tag, s.getConstrainedAge tag ≤ s'.getConstrainedAge tag

theorem Below.refl (s : ConstrainedAges) : Below s s := ⟨id, fun _ => le_rfl⟩

theorem Below.of_top (h : s.top = true) : Below s s' :=
  ⟨fun _ => h, fun tag => by simp [getConstrainedAge_of_top h]⟩

theorem Below.top_eq_false (h : Below s s') (hs : s.top = false) : s'.top = false := by
  by_contra htop
  rw [Bool.not_eq_false] at htop
  rw [h.top htop] at hs
  cases hs

/-- More blocks that are useful do not lower an age. -/
theorem Below.update (h : Below s s') {A UAge : ℕ} {tag : TagType} {UCBs UCBs' : ImplicitSet}
    (hpos : UCBs.isUniverse = false) (hpos' : UCBs'.isUniverse = false)
    (hsub : UCBs.elements ⊆ UCBs'.elements) :
    Below (s.update A tag UCBs UAge) (s'.update A tag UCBs' UAge) := by
  cases htop : s.top with
  | true =>
    apply Below.of_top
    rw [ConstrainedAges.update, if_pos htop, htop]
  | false =>
    have htop' := h.top_eq_false htop
    by_cases hsize : UCBs.size = 0
    · apply Below.of_top
      rw [ConstrainedAges.update, if_neg (by simp [htop]), if_pos hsize]
      rfl
    · have hsize' : UCBs'.size ≠ 0 := by
        simp only [ImplicitSet.size, ImplicitSet.isNegated, hpos, hpos', Bool.false_eq_true,
          if_false, ne_eq, List.length_eq_zero_iff] at hsize ⊢
        intro hnil
        rw [hnil, List.subset_nil] at hsub
        exact hsize hsub
      constructor
      · intro hnot
        rw [ConstrainedAges.update, if_neg (by simp [htop']), if_neg hsize'] at hnot
        cases hnot
      · intro tag'
        rw [getConstrainedAge_update htop hsize, getConstrainedAge_update htop' hsize']
        by_cases hmem : tag' ∈ UCBs.elements
        · rw [if_pos hmem, if_pos (hsub hmem)]
          split_ifs
          · exact le_rfl
          · exact updateAge_mono (h.age tag')
        · rw [if_neg hmem]
          exact Nat.zero_le _

theorem Below.join (h : Below s s') (ht : Below t t') : Below (s.join t) (s'.join t') := by
  cases hs : s.top with
  | true =>
    apply Below.of_top
    rw [ConstrainedAges.join, if_pos hs, hs]
  | false =>
    have hs' := h.top_eq_false hs
    cases htop : t.top with
    | true =>
      apply Below.of_top
      rw [ConstrainedAges.join, if_neg (by simp [hs]), if_pos htop]
      rfl
    | false =>
      have htop' := ht.top_eq_false htop
      constructor
      · intro hnot
        rw [ConstrainedAges.join, if_neg (by simp [hs']), if_neg (by simp [htop'])] at hnot
        cases hnot
      · intro tag
        rw [getConstrainedAge_join hs htop, getConstrainedAge_join hs' htop']
        exact max_le_max (h.age tag) (ht.age tag)

end ConstrainedAges

/-- The accesses to a cache set on the paths to a program point, joined where the paths
meet. A known access leads to a program point `PP`, where the must analysis has the age
`UAge` for its tag. -/
inductive AgeRun where
  | start
  | update (r : AgeRun) (PP : ℕ) (tag : TagType) (UAge : ℕ)
  | potentialUpdate (r : AgeRun)
  | join (r₁ r₂ : AgeRun)

namespace AgeRun

/-- The constrained ages after a run, with the useful blocks of each program point. -/
def eval (ASSOCIATIVITY : ℕ) (UCBs : ℕ → ImplicitSet) : AgeRun → ConstrainedAges
  | .start => .new
  | .update r PP tag UAge => (eval ASSOCIATIVITY UCBs r).update ASSOCIATIVITY tag (UCBs PP) UAge
  | .potentialUpdate r => (eval ASSOCIATIVITY UCBs r).potentialUpdate
  | .join r₁ r₂ => (eval ASSOCIATIVITY UCBs r₁).join (eval ASSOCIATIVITY UCBs r₂)

/-- With more blocks that are useful no age is lower after a run. -/
theorem eval_below {A : ℕ} {UCBs UCBs' : ℕ → ImplicitSet}
    (hpos : ∀ PP, (UCBs PP).isUniverse = false) (hpos' : ∀ PP, (UCBs' PP).isUniverse = false)
    (hsub : ∀ PP, (UCBs PP).elements ⊆ (UCBs' PP).elements) (r : AgeRun) :
    (r.eval A UCBs).Below (r.eval A UCBs') := by
  induction r with
  | start => exact .refl _
  | update r PP tag UAge ih => exact ih.update (hpos PP) (hpos' PP) (hsub PP)
  | potentialUpdate r ih => exact .of_top rfl
  | join r₁ r₂ ih₁ ih₂ => exact ih₁.join ih₂

end AgeRun

end Llvmta
