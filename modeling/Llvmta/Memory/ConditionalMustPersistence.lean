import Llvmta.Library.CollectingRun
import Llvmta.Library.LruPath
import Llvmta.Memory.AbstractCache

/-!
# Conditional-must persistence

The analysis counts, for each tag accessed since the scope was entered, the
conflicting tags since its last access; a tag without an entry counts as not
accessed yet. The count of a tag saturates at `ASSOCIATIVITY + 1`. It is a bound
on the real number of conflicts only as long as every access is recorded:
`update` forgets to age the other entries when it creates one, and
`potentialUpdate` creates none.
-/

namespace Llvmta

open Checked Lru

/-- `std::map<TagType, unsigned> conflicts`, by its lookups. -/
structure ConditionalMustPersistence where
  conflicts : ℕ → Option ℕ

namespace ConditionalMustPersistence

variable (T : CacheTraits)

def new (_assumeAnEmptyCache : Bool) : ConditionalMustPersistence := ⟨fun _ => none⟩

def classify (_s : ConditionalMustPersistence) (_addr : AbstractAddress) : Classification :=
  .clUnknown

/-- `if (block.second > 0 && block.second <= T->ASSOCIATIVITY) block.second++;` -/
def ageBlock (n : ℕ) : ℕ := if 0 < n ∧ n ≤ T.associativity then toUnsigned (n + 1) else n

def potentialUpdate (s : ConditionalMustPersistence) (_addr : AbstractAddress)
    (_load_store : AccessType) (_wantReport : Bool) :
    ConditionalMustPersistence × Option UpdateReport :=
  (⟨fun t => (s.conflicts t).map (ageBlock T)⟩, none)

def update (s : ConditionalMustPersistence) (tag : ℕ) (_load_store : AccessType)
    (_wantReport : Bool) (_assumption : Classification) :
    ConditionalMustPersistence × Option UpdateReport :=
  match s.conflicts tag with
  | none => (⟨fun t => if t = tag then some 1 else s.conflicts t⟩, none)
  | some _ =>
    (⟨fun t => (s.conflicts t).map fun n => if t = tag then 1 else ageBlock T n⟩, none)

def join (x y : ConditionalMustPersistence) : ConditionalMustPersistence :=
  ⟨fun t => match y.conflicts t with
    | none => x.conflicts t
    | some n => some (max n ((x.conflicts t).getD 0))⟩

def isPersistent (s : ConditionalMustPersistence) (tag : ℕ) : Bool :=
  match s.conflicts tag with
  | some n => n ≤ T.associativity
  | none => true

/-! ## Runs -/

inductive PersistenceOp where
  | update (tag : ℕ)
  | potentialUpdate (addr : AbstractAddress)
  deriving DecidableEq, Repr

/-- The tags of the set `index` that an unknown access may touch. -/
def Touches (index : ℕ) (addr : AbstractAddress) (tag : ℕ) : Prop :=
  ∃ a ∈ addr.interval, getindex T a = index ∧ getTag T a = tag

/-- The analysis of the set `index`, with the paths of accesses to that set since
the scope was entered. -/
def analysis (index : ℕ) :
    Collecting.Analysis Unit PersistenceOp ConditionalMustPersistence (List ℕ) Fault where
  start _ := new false
  step
    | .update tag, s => .ok (update T s tag .load false .clUnknown).1
    | .potentialUpdate addr, s => .ok (potentialUpdate T s addr .load false).1
  join x y := .ok (join x y)
  described _ := {[]}
  concrete
    | .update tag, π, π' => π' = tag :: π
    | .potentialUpdate addr, π, π' => π' = π ∨ ∃ tag, Touches T index addr tag ∧ π' = tag :: π

/-- Every access of the step is recorded: an update that creates an entry finds
none that it would have to age, and an unknown access touches only tags with an
entry. -/
def Recorded (index : ℕ) : PersistenceOp → ConditionalMustPersistence → Set (List ℕ) → Prop
  | .update tag, s, _ => (s.conflicts tag).isSome ∨
      ∀ t n, s.conflicts t = some n → ¬ (0 < n ∧ n ≤ T.associativity)
  | .potentialUpdate addr, s, _ => ∀ tag, Touches T index addr tag → (s.conflicts tag).isSome

variable {T}

/-- Each tag of the path has an entry, which bounds its conflicts unless it is saturated. -/
def Bounds (T : CacheTraits) (s : ConditionalMustPersistence) (π : List ℕ) : Prop :=
  ∀ t ∈ π, ∃ n, s.conflicts t = some n ∧ 0 < n ∧ (n ≤ T.associativity → recency π t + 1 ≤ n)

theorem ageBlock_pos (hA : T.associativity + 1 < 2 ^ 32) {n : ℕ} (hn : 0 < n) :
    0 < ageBlock T n := by
  unfold ageBlock
  split_ifs with h
  · rw [toUnsigned_of_lt (by omega)]
    exact Nat.succ_pos n
  · exact hn

/-- An aged entry bounds one conflict more. -/
theorem le_ageBlock (hA : T.associativity + 1 < 2 ^ 32) {n m : ℕ} (hn : 0 < n)
    (h : n ≤ T.associativity → m ≤ n) (hle : ageBlock T n ≤ T.associativity) :
    m + 1 ≤ ageBlock T n := by
  unfold ageBlock at hle ⊢
  split_ifs at hle ⊢ with hc
  · rw [toUnsigned_of_lt (by omega)]
    exact Nat.succ_le_succ (h hc.2)
  · exact absurd ⟨hn, hle⟩ hc

/-- Ageing an entry accounts for any one access. -/
theorem bounds_ageBlock {s : ConditionalMustPersistence} {π : List ℕ} (h : Bounds T s π)
    (hA : T.associativity + 1 < 2 ^ 32) {x t : ℕ} (ht : t ∈ π) (hne : x ≠ t) :
    ∃ n, s.conflicts t = some n ∧ 0 < ageBlock T n ∧
      (ageBlock T n ≤ T.associativity →
        recency π t + 1 ≤ ageBlock T n ∧
        recency (x :: π) t + 1 ≤ ageBlock T n) := by
  obtain ⟨n, hn, hpos, hbound⟩ := h t ht
  refine ⟨n, hn, ageBlock_pos hA hpos, fun hle => ?_⟩
  have hnext := le_ageBlock hA hpos hbound hle
  have := (recency_le_cons hne π).2
  omega

theorem bounds_update {s : ConditionalMustPersistence} {π : List ℕ} (h : Bounds T s π)
    (hA : T.associativity + 1 < 2 ^ 32) {tag : ℕ}
    (hrec : (s.conflicts tag).isSome ∨
      ∀ t n, s.conflicts t = some n → ¬ (0 < n ∧ n ≤ T.associativity)) :
    Bounds T (update T s tag .load false .clUnknown).1 (tag :: π) := by
  intro t ht
  by_cases hne : t = tag
  · subst t
    refine ⟨1, ?_, Nat.one_pos, fun _ => by rw [recency_cons_self]⟩
    cases hs : s.conflicts tag <;> simp [update, hs]
  · have htπ : t ∈ π := (List.mem_cons.mp ht).resolve_left hne
    cases hs : s.conflicts tag with
    | none =>
      obtain ⟨n, hn, hpos, _⟩ := h t htπ
      have hold := (hrec.resolve_left (by simp [hs])) t n hn
      refine ⟨n, by simp [update, hs, hne, hn], hpos, fun hle => ?_⟩
      exact absurd ⟨hpos, hle⟩ hold
    | some m =>
      obtain ⟨n, hn, hpos, hbound⟩ := bounds_ageBlock h hA (x := tag) htπ (Ne.symm hne)
      refine ⟨ageBlock T n, ?_, hpos, fun hle => (hbound hle).2⟩
      simp [update, hs, hne, hn]

theorem bounds_potentialUpdate {s : ConditionalMustPersistence} {π : List ℕ} (h : Bounds T s π)
    (hA : T.associativity + 1 < 2 ^ 32) {index : ℕ} {addr : AbstractAddress}
    (hrec : ∀ tag, Touches T index addr tag → (s.conflicts tag).isSome)
    (hpos : ∀ t n, s.conflicts t = some n → 0 < n) {π' : List ℕ}
    (hπ : π' = π ∨ ∃ tag, Touches T index addr tag ∧ π' = tag :: π) :
    Bounds T (potentialUpdate T s addr .load false).1 π' := by
  have hmap {t n : ℕ} (hn : s.conflicts t = some n) :
      (potentialUpdate T s addr .load false).1.conflicts t =
        some (ageBlock T n) := by
    simp [potentialUpdate, hn]
  intro t ht
  rcases hπ with rfl | ⟨tag, htag, rfl⟩
  · obtain ⟨n, hn, hnpos, hbound⟩ := h t ht
    refine ⟨_, hmap hn, ageBlock_pos hA hnpos, fun hle => ?_⟩
    exact (Nat.le_succ _).trans (le_ageBlock hA hnpos hbound hle)
  · by_cases hne : t = tag
    · subst t
      obtain ⟨n, hn⟩ := Option.isSome_iff_exists.mp (hrec tag htag)
      refine ⟨_, hmap hn, ageBlock_pos hA (hpos tag n hn), fun _ => ?_⟩
      rw [recency_cons_self]
      exact ageBlock_pos hA (hpos tag n hn)
    · have htπ : t ∈ π := (List.mem_cons.mp ht).resolve_left hne
      obtain ⟨n, hn, hnpos, hbound⟩ := bounds_ageBlock h hA (x := tag) htπ (Ne.symm hne)
      exact ⟨_, hmap hn, hnpos, fun hle => (hbound hle).2⟩

theorem bounds_join_left {x y : ConditionalMustPersistence} {π : List ℕ} (h : Bounds T x π) :
    Bounds T (join x y) π := by
  intro t ht
  obtain ⟨n, hn, hpos, hbound⟩ := h t ht
  cases hy : y.conflicts t with
  | none => exact ⟨n, by simp [join, hy, hn], hpos, hbound⟩
  | some m =>
    refine ⟨max m n, by simp [join, hy, hn], by omega, fun hle => ?_⟩
    have := hbound (by omega)
    omega

theorem bounds_join_right {x y : ConditionalMustPersistence} {π : List ℕ} (h : Bounds T y π) :
    Bounds T (join x y) π := by
  intro t ht
  obtain ⟨n, hn, hpos, hbound⟩ := h t ht
  refine ⟨max n ((x.conflicts t).getD 0), by simp [join, hn], by omega,
    fun hle => ?_⟩
  have := hbound (by omega)
  omega

/-- A state with positive entries that bounds all paths of `K`. -/
def Describes (T : CacheTraits) (s : ConditionalMustPersistence) (K : Set (List ℕ)) : Prop :=
  (∀ t n, s.conflicts t = some n → 0 < n) ∧ ∀ π ∈ K, Bounds T s π

theorem describes_step (hA : T.associativity + 1 < 2 ^ 32) {index : ℕ} (op : PersistenceOp)
    (s : ConditionalMustPersistence) (K : Set (List ℕ)) (h : Describes T s K)
    (hop : Recorded T index op s K) :
    ∃ s', (analysis T index).step op s = .ok s' ∧
      Describes T s' ((analysis T index).image op K) := by
  obtain ⟨hpos, hK⟩ := h
  cases op with
  | update tag =>
    refine ⟨_, rfl, ?_, ?_⟩
    · intro t n hn
      cases hs : s.conflicts tag with
      | none =>
        simp only [update, hs] at hn
        split_ifs at hn with htag
        · cases hn
          exact Nat.one_pos
        · exact hpos t n hn
      | some m =>
        simp only [update, hs, Option.map_eq_some_iff] at hn
        obtain ⟨k, hk, rfl⟩ := hn
        split_ifs
        · exact Nat.one_pos
        · exact ageBlock_pos hA (hpos t k hk)
    · rintro _ ⟨π, hπ, rfl⟩
      exact bounds_update (hK π hπ) hA hop
  | potentialUpdate addr =>
    refine ⟨_, rfl, ?_, ?_⟩
    · intro t n hn
      simp only [potentialUpdate, Option.map_eq_some_iff] at hn
      obtain ⟨k, hk, rfl⟩ := hn
      exact ageBlock_pos hA (hpos t k hk)
    · rintro π' ⟨π, hπ, hπ'⟩
      exact bounds_potentialUpdate (hK π hπ) hA hop hpos hπ'

theorem describes_join {index : ℕ} (s t : ConditionalMustPersistence) (K L : Set (List ℕ))
    (hs : Describes T s K) (ht : Describes T t L) :
    ∃ u, (analysis T index).join s t = .ok u ∧ Describes T u (K ∪ L) := by
  refine ⟨_, rfl, ?_, ?_⟩
  · intro tag n hn
    cases hy : t.conflicts tag with
    | none =>
      simp only [join, hy] at hn
      exact hs.1 tag n hn
    | some m =>
      simp only [join, hy, Option.some_inj] at hn
      have := ht.1 tag m hy
      omega
  · rintro π (hπ | hπ)
    · exact bounds_join_left (hs.2 π hπ)
    · exact bounds_join_right (ht.2 π hπ)

/-- In a run in which every access is recorded, a tag that was accessed and is
persistent had at most `ASSOCIATIVITY` distinct tags accessed since, itself
included, its entry bounds their number unless it is saturated, and the next
access to it hits in any set that was in the cache at scope entry. -/
theorem recordedRun_sound (T : CacheTraits) (hA : T.associativity + 1 < 2 ^ 32) (index : ℕ)
    (r : Collecting.Run Unit PersistenceOp) (hr : (analysis T index).Every (Recorded T index) r) :
    ∃ s, (analysis T index).eval r = .ok s ∧ ∀ π ∈ (analysis T index).collect r, ∀ t ∈ π,
      (∃ n, s.conflicts t = some n ∧ (n ≤ T.associativity → recency π t + 1 ≤ n)) ∧
      (isPersistent T s t = true → recency π t + 1 ≤ T.associativity ∧
        ∀ c : CacheSet ℕ T.associativity, t ∈ c.run π) := by
  have hstart (i : Unit) : Describes T ((analysis T index).start i)
      ((analysis T index).described i) := by
    refine ⟨by simp [analysis, new], ?_⟩
    rintro π rfl t ht
    exact absurd ht List.not_mem_nil
  obtain ⟨s, hs, _, hK⟩ := Collecting.Analysis.Run.sound (Describes T) hstart (describes_step hA)
    describes_join r hr
  refine ⟨s, hs, fun π hπ t ht => ?_⟩
  obtain ⟨n, hn, _, hbound⟩ := hK π hπ t ht
  refine ⟨⟨n, hn, hbound⟩, fun hpers => ?_⟩
  have hle : n ≤ T.associativity := by simpa [isPersistent, hn] using hpers
  have hrec := (hbound hle).trans hle
  exact ⟨hrec, fun c => (c.within_run ht hrec).1⟩

/-- Both operations, each with its access recorded. -/
theorem recordedRun_sound_twoWays :
    let T : CacheTraits := ⟨16, 2, 4, false, false, 1, 5⟩
    let r : Collecting.Run Unit PersistenceOp :=
      .step (.step (.start ()) (.update 0)) (.potentialUpdate ⟨⟨16, 20, by decide, by decide⟩, none⟩)
    ∃ s, (analysis T 1).eval r = .ok s ∧ ∀ π ∈ (analysis T 1).collect r, ∀ t ∈ π,
      (∃ n, s.conflicts t = some n ∧ (n ≤ T.associativity → recency π t + 1 ≤ n)) ∧
      (isPersistent T s t = true → recency π t + 1 ≤ T.associativity ∧
        ∀ c : CacheSet ℕ T.associativity, t ∈ c.run π) := by
  intro T r
  apply recordedRun_sound T (by decide) 1 r
  refine ⟨⟨trivial, ?_⟩, ?_⟩
  · rintro s hs
    cases hs
    exact .inr (by simp [analysis, new])
  · rintro s hs tag ⟨a, ⟨hlow, hup⟩, _, htag⟩
    cases hs
    dsimp only at hlow hup
    have hzero : tag = 0 := by
      rw [← htag, getTag]
      dsimp only [T]
      omega
    rw [hzero]
    rfl

/-- In a direct-mapped set, the first access to tag 1 leaves the entry of tag 0 alone. -/
theorem firstAccess_not_aged :
    let T : CacheTraits := ⟨16, 1, 4, false, false, 1, 5⟩
    let r : Collecting.Run Unit PersistenceOp := .step (.step (.start ()) (.update 0)) (.update 1)
    ∃ s, (analysis T 0).eval r = .ok s ∧ ∃ π ∈ (analysis T 0).collect r, 0 ∈ π ∧
      isPersistent T s 0 = true ∧ T.associativity < recency π 0 + 1 ∧
      ∀ c : CacheSet ℕ T.associativity, 0 ∉ c.run π := by
  intro T r
  refine ⟨_, rfl, [1, 0], ⟨[0], ⟨[], rfl, rfl⟩, rfl⟩, by decide, by decide, by decide, ?_⟩
  intro c hmem
  have hlines : (c.run [1, 0]).lines = [1] := rfl
  rw [CacheSet.mem_def, hlines] at hmem
  exact absurd hmem (by decide)

end ConditionalMustPersistence

end Llvmta
