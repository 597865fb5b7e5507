import Llvmta.Memory.ArrayAwareSoundness

/-!
# Runs of the array-aware must analysis

Both kinds of conflict sets give sound ages in runs whose steps are covered. An
assumed hit may leave an entry in the last way although its conflicts grow; with
unions, an access may find an entry that is as old as the accessed one only
because a join has paid for its arrays.
-/

namespace Llvmta

open Checked Lru

namespace LruMaxAgeArrayAwareCache

variable {T : CacheTraits} {P : StaticAddressProvider} {index : ℕ}

/-- Cached entries are hits, and a full map proves misses. -/
theorem classify_sound {s : LruMaxAgeArrayAwareCache} (hw : WellFormed T s.ages)
    {c : CacheSet ℕ T.associativity} (h : ∀ tag m, (tag, m) ∈ s.ages → c.Within tag m.age)
    (addr : AbstractAddress) :
    (s.classify T addr = .ok .clHit → getTag T addr.interval.lower ∈ c) ∧
      (s.classify T addr = .ok .clMiss → getTag T addr.interval.lower ∉ c) := by
  have hmem : ∀ t ∈ s.ages.map Prod.fst, t ∈ c := by
    intro t ht
    obtain ⟨e, he, rfl⟩ := List.mem_map.mp ht
    exact (h e.1 e.2 he).1
  have hnodup : (s.ages.map Prod.fst).Nodup := hw.sorted.imp fun hlt => hlt.ne
  constructor
  · intro hclass
    obtain ⟨tag, htag, hrest⟩ := bind_eq_ok.mp hclass
    obtain ⟨_, _, htag⟩ := bind_eq_ok.mp htag
    obtain ⟨_, _, hrest⟩ := bind_eq_ok.mp hrest
    cases htag
    split_ifs at hrest with hfind
    · obtain ⟨m, hm⟩ := Option.isSome_iff_exists.mp hfind
      exact (h _ m ((find?_eq_some hw).mp hm)).1
    · cases hrest
    · cases hrest
  · intro hclass
    obtain ⟨tag, htag, hrest⟩ := bind_eq_ok.mp hclass
    obtain ⟨_, _, htag⟩ := bind_eq_ok.mp htag
    obtain ⟨_, _, hrest⟩ := bind_eq_ok.mp hrest
    cases htag
    split_ifs at hrest with hfind hfull
    · cases hrest
    · apply CacheSet.notMem_of_full hnodup _ hmem
      · intro hin
        obtain ⟨⟨t, m⟩, he, rfl⟩ := List.mem_map.mp hin
        exact hfind (by rw [(find?_eq_some hw).mpr he]; rfl)
      · rw [List.length_map, hfull]
    · cases hrest

/-! ## Intersected conflict sets -/

/-- With intersected conflict sets, every run is sound whose assumed hits leave no
entry of the last way without ageing, unless no array is counted at that step. -/
theorem intersectRun_sound (T : CacheTraits) (P : StaticAddressProvider) (index : ℕ)
    (hpos : 0 < T.associativity) (hA : T.associativity < 256)
    (hblocks : ∀ arr, (arrayBlocks T P index arr).card ≤ getPerSetSize T P arr)
    (r : Collecting.Run Bool (ArrayAwareOp T index))
    (hr : (analysis T P .conflictSetIntersect index).Every (fun op s _ => HitCovered T index op s) r) :
    ∃ s, (analysis T P .conflictSetIntersect index).eval r = .ok s ∧
      ∀ c ∈ (analysis T P .conflictSetIntersect index).collect r,
        (∀ tag m, (tag, m) ∈ s.ages → c.Within tag m.age) ∧
        ∀ addr, (s.classify T addr = .ok .clHit → getTag T addr.interval.lower ∈ c) ∧
          (s.classify T addr = .ok .clMiss → getTag T addr.interval.lower ∉ c) := by
  have hcovered : (analysis T P .conflictSetIntersect index).Every
      (fun op s _ => Covered T .conflictSetIntersect index op s) r := by
    apply hr.imp
    intro op s K hop
    exact ⟨hop, fun hkind => by cases hkind⟩
  obtain ⟨s, hs, hw, hwithin⟩ := coveredRun_within hA hpos hblocks r hcovered
  exact ⟨s, hs, fun c hc => ⟨hwithin c hc, classify_sound hw (hwithin c hc)⟩⟩

theorem getindex_fourSets (A tag : ℕ) (h : 64 * tag < 2 ^ 32) :
    getindex (fourSets A) (AbstractAddress.ofAddress (64 * tag) h).interval.lower = 0 := by
  simp only [AbstractAddress.ofAddress, AddressInterval.point, getindex, fourSets]
  omega

/-- An access to the line of a tag in the set 0. -/
def accessTag (A : ℕ) (tag : ℕ) (h : 64 * tag < 2 ^ 32) (assumption : Classification) :
    ArrayAwareOp (fourSets A) 0 :=
  .update (.ofAddress (64 * tag) h) rfl (getindex_fourSets A tag h) false assumption

/-- An access somewhere into an array of one word at the given address. -/
def accessArray (A : ℕ) (address : ℕ) (h : address < 2 ^ 32) : ArrayAwareOp (fourSets A) 0 :=
  .potentialUpdate ⟨.point address h, some 0⟩ false

theorem getTag_fourSets (A tag : ℕ) : getTag (fourSets A) (64 * tag) = tag := by
  simp only [getTag, fourSets]
  omega

theorem access_mem_image {A tag : ℕ} {h : 64 * tag < 2 ^ 32} {assumption : Classification}
    {kind : ArrayMustAnaType} {K : Set (CacheSet ℕ A)} {c : CacheSet ℕ A} (hc : c ∈ K)
    (hhit : assumption = .clHit → tag ∈ c) :
    c.access tag ∈ (analysis (fourSets A) P kind 0).image (accessTag A tag h assumption) K := by
  refine ⟨c, hc, ?_⟩
  change (assumption = .clHit → getTag (fourSets A) (64 * tag) ∈ c) ∧
    c.access tag = c.access (getTag (fourSets A) (64 * tag))
  rw [getTag_fourSets]
  exact ⟨hhit, rfl⟩

theorem touch_mem_image {A address tag : ℕ} {h : address < 2 ^ 32} {kind : ArrayMustAnaType}
    {K : Set (CacheSet ℕ A)} {c : CacheSet ℕ A} (hc : c ∈ K)
    (htouch : tag ∈ arrayBlocks (fourSets A) P 0 0) :
    c.access tag ∈ (analysis (fourSets A) P kind 0).image (accessArray A address h) K :=
  ⟨c, hc, .inr ⟨tag, htouch, rfl⟩⟩

theorem mem_image_array {A address : ℕ} {h : address < 2 ^ 32} {kind : ArrayMustAnaType}
    {K : Set (CacheSet ℕ A)} {c : CacheSet ℕ A} (hc : c ∈ K) :
    c ∈ (analysis (fourSets A) P kind 0).image (accessArray A address h) K :=
  ⟨c, hc, .inl rfl⟩

/-- An assumed hit in an empty map, and an access to an array with one block. -/
theorem intersectRun_sound_twoWays :
    let T := fourSets 2
    let P : StaticAddressProvider := .single 64 4 (by decide) (by decide)
    let r : Collecting.Run Bool (ArrayAwareOp T 0) :=
      .join (.step (.step (.start false) (accessTag 2 3 (by decide) .clHit))
        (accessArray 2 64 (by decide))) (.start true)
    ∃ s, (analysis T P .conflictSetIntersect 0).eval r = .ok s ∧
      ∀ c ∈ (analysis T P .conflictSetIntersect 0).collect r,
        (∀ tag m, (tag, m) ∈ s.ages → c.Within tag m.age) ∧
        ∀ addr, (s.classify T addr = .ok .clHit → getTag T addr.interval.lower ∈ c) ∧
          (s.classify T addr = .ok .clMiss → getTag T addr.interval.lower ∉ c) := by
  intro T P r
  apply intersectRun_sound T P 0 (by decide) (by decide)
    (fun arr => card_arrayBlocks_le (geometry_fourSets 2) 0 arr) r
  refine ⟨⟨⟨trivial, ?_⟩, fun _ _ => trivial⟩, trivial⟩
  intro s hs _ _
  cases hs
  exact .inr fun e he => absurd he List.not_mem_nil

/-- The entry of tag 2 stays in the last way when a hit of tag 3 is assumed, and is not
aged by the array, which it has counted before. -/
theorem assumedHit_evicts :
    let T := fourSets 2
    let P : StaticAddressProvider := .single 64 4 (by decide) (by decide)
    let r : Collecting.Run Bool (ArrayAwareOp T 0) :=
      .step (.step (.step (.step (.start false) (accessTag 2 2 (by decide) .clUnknown))
        (accessArray 2 64 (by decide))) (accessTag 2 3 (by decide) .clHit))
        (accessArray 2 64 (by decide))
    (∀ arr, (arrayBlocks T P 0 arr).card ≤ getPerSetSize T P arr) ∧
    ∃ s, (analysis T P .conflictSetIntersect 0).eval r = .ok s ∧
      ∃ c ∈ (analysis T P .conflictSetIntersect 0).collect r,
        ∃ tag m, (tag, m) ∈ s.ages ∧ ¬ c.Within tag m.age := by
  intro T P r
  refine ⟨fun arr => card_arrayBlocks_le (geometry_fourSets 2) 0 arr, ?_⟩
  have heval : (analysis T P .conflictSetIntersect 0).eval r =
      .ok ⟨[(2, ⟨1, [0]⟩), (3, ⟨1, [0]⟩)]⟩ := by decide
  have htouch : 1 ∈ arrayBlocks T P 0 0 := mem_arrayBlocks.mpr ⟨64, by decide⟩
  let c : CacheSet ℕ 2 := ⟨[3], by decide, by decide⟩
  have hc : c ∈ (analysis T P .conflictSetIntersect 0).collect (.start false) := fun h => by cases h
  have hcollect : ((c.access 2).access 3).access 1 ∈
      (analysis T P .conflictSetIntersect 0).collect r := by
    apply touch_mem_image _ htouch
    apply access_mem_image
    · apply mem_image_array
      exact access_mem_image hc fun h => absurd h (by decide)
    · intro _
      decide
  refine ⟨_, heval, _, hcollect, 2, ⟨1, [0]⟩, by decide, ?_⟩
  rintro ⟨hmem, _⟩
  exact absurd hmem (by decide)

/-! ## United conflict sets -/

/-- With united conflict sets, a run is sound whose assumed hits are covered in the
same way, and whose accesses find no entry that is too young for its counts. -/
theorem unionRun_sound (T : CacheTraits) (P : StaticAddressProvider) (index : ℕ)
    (hpos : 0 < T.associativity) (hA : T.associativity < 256)
    (hblocks : ∀ arr, (arrayBlocks T P index arr).card ≤ getPerSetSize T P arr)
    (r : Collecting.Run Bool (ArrayAwareOp T index))
    (hr : (analysis T P .conflictSetUnion index).Every
      (fun op s _ => HitCovered T index op s ∧ CountsCovered T index op s) r) :
    ∃ s, (analysis T P .conflictSetUnion index).eval r = .ok s ∧
      ∀ c ∈ (analysis T P .conflictSetUnion index).collect r,
        (∀ tag m, (tag, m) ∈ s.ages → c.Within tag m.age) ∧
        ∀ addr, (s.classify T addr = .ok .clHit → getTag T addr.interval.lower ∈ c) ∧
          (s.classify T addr = .ok .clMiss → getTag T addr.interval.lower ∉ c) := by
  have hcovered : (analysis T P .conflictSetUnion index).Every
      (fun op s _ => Covered T .conflictSetUnion index op s) r := by
    apply hr.imp
    rintro op s K ⟨hhit, hcounts⟩
    exact ⟨hhit, fun _ => hcounts⟩
  obtain ⟨s, hs, hw, hwithin⟩ := coveredRun_within hA hpos hblocks r hcovered
  exact ⟨s, hs, fun c hc => ⟨hwithin c hc, classify_sound hw (hwithin c hc)⟩⟩

/-- Two accesses to one tag with an array access in between, and a join. -/
theorem unionRun_sound_threeWays :
    let T := fourSets 3
    let P : StaticAddressProvider := .single 192 4 (by decide) (by decide)
    let r : Collecting.Run Bool (ArrayAwareOp T 0) :=
      .join (.step (.step (.step (.start false) (accessTag 3 0 (by decide) .clUnknown))
        (accessArray 3 192 (by decide))) (accessTag 3 0 (by decide) .clHit)) (.start true)
    ∃ s, (analysis T P .conflictSetUnion 0).eval r = .ok s ∧
      ∀ c ∈ (analysis T P .conflictSetUnion 0).collect r,
        (∀ tag m, (tag, m) ∈ s.ages → c.Within tag m.age) ∧
        ∀ addr, (s.classify T addr = .ok .clHit → getTag T addr.interval.lower ∈ c) ∧
          (s.classify T addr = .ok .clMiss → getTag T addr.interval.lower ∉ c) := by
  intro T P r
  apply unionRun_sound T P 0 (by decide) (by decide)
    (fun arr => card_arrayBlocks_le (geometry_fourSets 3) 0 arr) r
  refine ⟨⟨⟨⟨trivial, ?_⟩, fun _ _ => ⟨trivial, trivial⟩⟩, ?_⟩, trivial⟩
  · intro s hs
    cases hs
    refine ⟨fun h => absurd h (by decide), fun m hm => ?_⟩
    cases hm
  · intro s hs
    have heval : (analysis T P .conflictSetUnion 0).eval (.step (.step (.start false)
        (accessTag 3 0 (by decide) .clUnknown)) (accessArray 3 192 (by decide))) =
        .ok ⟨[(0, ⟨1, [0]⟩)]⟩ := by decide
    rw [heval] at hs
    cases hs
    refine ⟨fun _ hnone => absurd hnone (by decide), fun m _ e he hne => ?_⟩
    rw [List.mem_singleton] at he
    subst he
    exact absurd (getTag_fourSets 3 0).symm hne

/-- The join pays for the array in the entry of tag 0, which then is as old as the
entry of tag 1 without being covered by it. -/
theorem joinedCount_evicts :
    let T := fourSets 3
    let P : StaticAddressProvider := .single 192 4 (by decide) (by decide)
    let access (tag : ℕ) (h : 64 * tag < 2 ^ 32) := accessTag 3 tag h .clUnknown
    let array := accessArray 3 192 (by decide)
    let left : Collecting.Run Bool (ArrayAwareOp T 0) :=
      .step (.step (.step (.start false) (access 1 (by decide))) (access 0 (by decide)))
        (access 2 (by decide))
    let right : Collecting.Run Bool (ArrayAwareOp T 0) :=
      .step (.step (.step (.start false) (access 0 (by decide))) array) (access 1 (by decide))
    let r : Collecting.Run Bool (ArrayAwareOp T 0) :=
      .step (.step (.join left right) (access 1 (by decide))) array
    (∀ arr, (arrayBlocks T P 0 arr).card ≤ getPerSetSize T P arr) ∧
    ∃ s, (analysis T P .conflictSetUnion 0).eval r = .ok s ∧
      ∃ c ∈ (analysis T P .conflictSetUnion 0).collect r,
        ∃ tag m, (tag, m) ∈ s.ages ∧ ¬ c.Within tag m.age := by
  intro T P access array left right r
  refine ⟨fun arr => card_arrayBlocks_le (geometry_fourSets 3) 0 arr, ?_⟩
  have hleft : (analysis T P .conflictSetUnion 0).eval left =
      .ok ⟨[(0, ⟨1, []⟩), (1, ⟨2, []⟩), (2, ⟨0, []⟩)]⟩ := by decide
  have hright : (analysis T P .conflictSetUnion 0).eval right =
      .ok ⟨[(0, ⟨2, [0]⟩), (1, ⟨0, []⟩)]⟩ := by decide
  have hzero : (⟨1, []⟩ : MustAge).join T .conflictSetUnion ⟨2, [0]⟩ = .ok ⟨2, [0]⟩ := by decide
  have hone : (⟨2, []⟩ : MustAge).join T .conflictSetUnion ⟨0, []⟩ = .ok ⟨2, []⟩ := by decide
  have hjoin : (analysis T P .conflictSetUnion 0).eval (.join left right) =
      .ok ⟨[(0, ⟨2, [0]⟩), (1, ⟨2, []⟩)]⟩ := by
    rw [Collecting.Analysis.eval_join_ok hleft hright]
    have hways : T.associativity = 3 := rfl
    simp [analysis, LruMaxAgeArrayAwareCache.join, joinEntries, hzero, hone,
      MustAge.isAssociativity, hways]
  have haccess : (analysis T P .conflictSetUnion 0).eval
      (.step (.join left right) (access 1 (by decide))) =
      .ok ⟨[(0, ⟨2, [0]⟩), (1, ⟨0, []⟩)]⟩ := by
    rw [Collecting.Analysis.eval_step_ok hjoin]
    decide
  have heval : (analysis T P .conflictSetUnion 0).eval r =
      .ok ⟨[(0, ⟨2, [0]⟩), (1, ⟨1, [0]⟩)]⟩ := by
    rw [Collecting.Analysis.eval_step_ok haccess]
    decide
  have htouch : 3 ∈ arrayBlocks T P 0 0 := mem_arrayBlocks.mpr ⟨192, by decide⟩
  have haccessed {tag : ℕ} {h : 64 * tag < 2 ^ 32} {K : Set (CacheSet ℕ 3)} {c : CacheSet ℕ 3}
      (hc : c ∈ K) : c.access tag ∈ (analysis T P .conflictSetUnion 0).image (access tag h) K :=
    access_mem_image hc fun h => absurd h (by decide)
  let c : CacheSet ℕ 3 := .empty
  have hc : c ∈ (analysis T P .conflictSetUnion 0).collect (.start false) := fun _ => rfl
  have hjoined : ((c.access 1).access 0).access 2 ∈
      (analysis T P .conflictSetUnion 0).collect (.join left right) :=
    .inl (haccessed (haccessed (haccessed hc)))
  refine ⟨_, heval, ((((c.access 1).access 0).access 2).access 1).access 3,
    touch_mem_image (haccessed hjoined) htouch, 0, ⟨2, [0]⟩, by decide, ?_⟩
  rintro ⟨hmem, _⟩
  exact absurd hmem (by decide)

end LruMaxAgeArrayAwareCache

end Llvmta
