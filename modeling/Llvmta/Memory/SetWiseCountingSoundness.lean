import Llvmta.Memory.SetWiseCountingPersistence

/-!
# Soundness of set-wise counting persistence

The distinct tags a path has accessed are covered by the analysis: each of them
is a collected block or is charged to an array it belongs to, no array being
charged more often than it is counted.
-/

namespace Llvmta

open Checked Lru Budget

section Blocks

variable (T : CacheTraits) (P : StaticAddressProvider) (mode : ArrayPersistenceAnaType) (index : ℕ)

/-- The block with a given tag in the set `index`. -/
def Block.at (tag : ℕ) : Block :=
  match mode with
  | .none => ⟨tag, []⟩
  | .setwise => ⟨tag, arraysAround T P ((tag * T.nSets + index) * T.lineSize)⟩

variable {T P mode index}

@[simp] theorem Block.at_tag (tag : ℕ) : (Block.at T P mode index tag).tag = tag := by
  cases mode <;> rfl

theorem nodup_arraysAround (address : ℕ) : (arraysAround T P address).Nodup := by
  have hsorted := P.sorted.filter (p := fun arr =>
    let start := P.getGlobalVarAddress arr
    let last := toUnsigned (start + P.getArraySize arr - 1)
    getCachelineAddress T start != getCachelineAddress T last &&
      decide (getCachelineAddress T start ≤ address) &&
      decide (address ≤ getCachelineAddress T last))
  exact hsorted.imp fun h => h.ne

theorem pairwise_arraysAround (address : ℕ) : (arraysAround T P address).Pairwise (· ≤ ·) :=
  (P.sorted.filter _).imp fun h => h.le

/-- The arrays around a line of the set have that line among their blocks. -/
theorem mem_arrayBlocks_of_around (hT : T.Geometry) (hindex : index < T.nSets) {tag : ℕ}
    {arr : GlobalVariable}
    (h : arr ∈ arraysAround T P ((tag * T.nSets + index) * T.lineSize)) :
    tag ∈ arrayBlocks T P index arr := by
  have hL := hT.lineSize_pos
  have hpos := P.pos arr
  have hfits := P.fits arr
  simp only [arraysAround, List.mem_filter, Bool.and_eq_true, bne_iff_ne, ne_eq,
    decide_eq_true_eq] at h
  obtain ⟨_, ⟨hne, hfirst⟩, hlast⟩ := h
  rw [toUnsigned_of_lt (by omega), hT.getCachelineAddress_eq (by omega)] at hlast hne
  rw [hT.getCachelineAddress_eq (by omega)] at hfirst hne
  have hle := Nat.le_of_mul_le_mul_right hfirst hL
  have hge := Nat.le_of_mul_le_mul_right hlast hL
  have hsize : 0 < P.getArraySize arr := by
    apply Nat.pos_of_ne_zero
    intro hzero
    have hdown : (P.getGlobalVarAddress arr + P.getArraySize arr - 1) / T.lineSize ≤
        P.getGlobalVarAddress arr / T.lineSize := Nat.div_le_div_right (by omega)
    exact hne (by rw [le_antisymm (hle.trans hge) hdown])
  exact mem_arrayBlocks_of_line hT hsize rfl hindex hle hge

/-- The block of a precise address in the set. -/
theorem Block.new_eq (hT : T.Geometry) {addr : AbstractAddress} (hprecise : addr.isPrecise = true)
    (hindex : getindex T addr.interval.lower = index) :
    Block.new T P mode addr = .ok (Block.at T P mode index (getTag T addr.interval.lower)) := by
  have hlt := addr.interval.lower_le.trans_lt addr.interval.upper_lt
  have hline : getCachelineAddress T addr.interval.lower =
      (getTag T addr.interval.lower * T.nSets + index) * T.lineSize := by
    rw [hT.getCachelineAddress_eq hlt, ← hindex, line_eq]
  have htag : getTag T (getCachelineAddress T addr.interval.lower) = getTag T addr.interval.lower := by
    rw [hT.getCachelineAddress_eq hlt, getTag, Nat.mul_div_cancel _ hT.lineSize_pos, getTag]
  unfold Block.new
  simp only [hprecise, assertThat_true, ok_bind, AbstractAddress.getAsInterval, htag]
  cases mode with
  | none => rfl
  | setwise =>
    simp only [pairwise_arraysAround, decide_true, assertThat_true, ok_bind, Block.at, hline]

/-- A block lists an array at most once, and only if it is one of its blocks. -/
theorem Block.count_at_le (hT : T.Geometry) (hindex : index < T.nSets) (tag : ℕ)
    (arr : GlobalVariable) : (Block.at T P mode index tag).surroundingArrays.count arr ≤
      if tag ∈ arrayBlocks T P index arr then 1 else 0 := by
  cases mode with
  | none => simp [Block.at]
  | setwise =>
    simp only [Block.at]
    by_cases hmem : arr ∈ arraysAround T P ((tag * T.nSets + index) * T.lineSize)
    · rw [if_pos (mem_arrayBlocks_of_around hT hindex hmem)]
      exact List.nodup_iff_count_le_one.mp (nodup_arraysAround _) arr
    · rw [List.count_eq_zero_of_not_mem hmem]
      exact Nat.zero_le _

end Blocks

namespace SetWiseCountingPersistence

variable (T : CacheTraits) (P : StaticAddressProvider) (mode : ArrayPersistenceAnaType) (index : ℕ)

/-- The tags of the collected blocks. -/
def tags (s : SetWiseCountingPersistence) : Finset ℕ := s.accessedBlocks.image Block.tag

/-- States that describe the set `index` and hold at most `ASSOCIATIVITY` entries. -/
structure WellFormed (s : SetWiseCountingPersistence) : Prop where
  r_index : s.r = 0 ∨ getindex T s.r = index
  block_eq : ∀ b ∈ s.accessedBlocks, b = Block.at T P mode index b.tag
  arrays_nil : mode = .none → s.accessedArrays = []
  size_le : s.size ≤ T.associativity

/-- The same for states of any size. -/
structure Shaped (s : SetWiseCountingPersistence) : Prop where
  r_index : s.r = 0 ∨ getindex T s.r = index
  block_eq : ∀ b ∈ s.accessedBlocks, b = Block.at T P mode index b.tag
  arrays_nil : mode = .none → s.accessedArrays = []

/-- The tags a path accessed are collected or charged to counted arrays. -/
def Accounts (s : SetWiseCountingPersistence) (π : List ℕ) : Prop :=
  Covers (arrayBlocks T P index) π.toFinset s.tags fun arr => s.accessedArrays.count arr

variable {T P mode index} {s : SetWiseCountingPersistence} {π : List ℕ}

theorem WellFormed.shaped (h : WellFormed T P mode index s) : Shaped T P mode index s :=
  ⟨h.r_index, h.block_eq, h.arrays_nil⟩

theorem Shaped.wellFormed (h : Shaped T P mode index s) (hsize : s.size ≤ T.associativity) :
    WellFormed T P mode index s :=
  ⟨h.r_index, h.block_eq, h.arrays_nil, hsize⟩

theorem tag_injective (h : ∀ b ∈ s.accessedBlocks, b = Block.at T P mode index b.tag) :
    Set.InjOn Block.tag (s.accessedBlocks : Set Block) := by
  intro b hb c hc htag
  rw [h b hb, h c hc, htag]

theorem card_tags (h : ∀ b ∈ s.accessedBlocks, b = Block.at T P mode index b.tag) :
    s.tags.card = s.accessedBlocks.card := Finset.card_image_of_injOn (tag_injective h)

/-- The collected blocks list an array at most as often as its blocks are collected. -/
theorem sum_count_le (hT : T.Geometry) (hindex : index < T.nSets)
    (h : ∀ b ∈ s.accessedBlocks, b = Block.at T P mode index b.tag) (arr : GlobalVariable) :
    ∑ b ∈ s.accessedBlocks, b.surroundingArrays.count arr ≤
      (arrayBlocks T P index arr ∩ s.tags).card := by
  calc ∑ b ∈ s.accessedBlocks, b.surroundingArrays.count arr
      ≤ ∑ b ∈ s.accessedBlocks, if b.tag ∈ arrayBlocks T P index arr then 1 else 0 := by
        apply Finset.sum_le_sum
        intro b hb
        rw [h b hb, Block.at_tag]
        exact Block.count_at_le hT hindex b.tag arr
    _ = ∑ t ∈ s.tags, if t ∈ arrayBlocks T P index arr then 1 else 0 := by
        rw [tags, Finset.sum_image (tag_injective h)]
    _ = (arrayBlocks T P index arr ∩ s.tags).card := by
        rw [← Finset.card_filter, Finset.filter_mem_eq_inter, Finset.inter_comm]

/-- The bound of an array is defined, and no smaller than its remaining blocks. -/
theorem getPerArrayBound_spec (hT : T.Geometry) (hindex : index < T.nSets)
    (h : ∀ b ∈ s.accessedBlocks, b = Block.at T P mode index b.tag) (arr : GlobalVariable) :
    ∃ bound, s.getPerArrayBound T P arr = .ok bound ∧ (arrayBlocks T P index arr).card ≤
      bound + (arrayBlocks T P index arr ∩ s.tags).card := by
  have hsum := sum_count_le hT hindex h arr
  have hinter : (arrayBlocks T P index arr ∩ s.tags).card ≤ (arrayBlocks T P index arr).card :=
    Finset.card_le_card Finset.inter_subset_left
  have hcard := card_arrayBlocks_le (P := P) hT index arr
  have hlt := getPerSetSize_lt (P := P) hT arr
  have hint : (BitVec.ofNat 32 (getPerSetSize T P arr)).toInt = (getPerSetSize T P arr : ℤ) := by
    rw [BitVec.toInt_eq_toNat_of_lt, BitVec.toNat_ofNat, Nat.mod_eq_of_lt (by omega)]
    rw [BitVec.toNat_ofNat, Nat.mod_eq_of_lt (by omega)]
    omega
  have hbound : (getPerSetSize T P arr : ℤ) -
      ∑ b ∈ s.accessedBlocks, (b.surroundingArrays.count arr : ℤ) =
      (getPerSetSize T P arr - ∑ b ∈ s.accessedBlocks, b.surroundingArrays.count arr : ℕ) := by
    rw [← Nat.cast_sum]
    omega
  refine ⟨getPerSetSize T P arr - ∑ b ∈ s.accessedBlocks, b.surroundingArrays.count arr, ?_, ?_⟩
  · unfold getPerArrayBound
    simp only [hint, hbound, Int.natCast_nonneg, decide_true, assertThat_true, ok_bind,
      Int.toNat_natCast]
  · omega

theorem size_gotoTop : s.gotoTop.size = 0 := rfl

theorem shaped_gotoTop (hr : s.r = 0 ∨ getindex T s.r = index) :
    Shaped T P mode index s.gotoTop :=
  ⟨hr, fun b hb => absurd hb (Finset.notMem_empty b), fun _ => rfl⟩

theorem wellFormed_gotoTop (hr : s.r = 0 ∨ getindex T s.r = index) :
    WellFormed T P mode index s.gotoTop :=
  (shaped_gotoTop hr).wellFormed (Nat.zero_le _)

/-- A covered path has at most as many distinct tags as the state has entries. -/
theorem Accounts.card_le (h : s.Accounts T P index π) (hw : Shaped T P mode index s) :
    π.toFinset.card ≤ s.size := by
  have hcovered := Covers.card_le h
  rwa [card_tags hw.block_eq] at hcovered

/-! ## Operations -/

/-- Counting an array: the state covers an access to any block of the array. It goes to
top when it has more than `ASSOCIATIVITY` entries already. -/
theorem countArray_spec (hT : T.Geometry) (hindex : index < T.nSets)
    (h : Shaped T P .setwise index s) (arr : GlobalVariable) :
    ∃ s' bound, s.getPerArrayBound T P arr = .ok bound ∧ s.countArray T P arr = .ok s' ∧
      Shaped T P .setwise index s' ∧ s'.r = s.r ∧
      (s' = s ∨ T.associativity < s.size ∧ s' = s.gotoTop ∨
        s.accessedArrays.count arr < bound ∧ s.size ≤ T.associativity ∧ s'.top = s.top ∧
          s'.size = s.size + 1) ∧
      (s'.top = false → ∀ π, s.Accounts T P index π → s'.Accounts T P index π ∧
        ∀ t ∈ arrayBlocks T P index arr, s'.Accounts T P index (t :: π)) := by
  obtain ⟨bound, hbound, hblocks⟩ := getPerArrayBound_spec hT hindex h.block_eq arr
  unfold countArray
  rw [hbound, ok_bind]
  by_cases hlt : s.accessedArrays.count arr < bound
  · rw [if_pos hlt]
    split_ifs with hsize
    · exact ⟨s.gotoTop, bound, rfl, rfl, shaped_gotoTop h.r_index, rfl, .inr (.inl ⟨hsize, rfl⟩),
        fun hcontra => absurd hcontra (by simp [gotoTop])⟩
    · have hperm := List.perm_orderedInsert (· ≤ ·) arr s.accessedArrays
      refine ⟨_, bound, rfl, rfl, ⟨h.r_index, h.block_eq, ?_⟩, rfl,
        .inr (.inr ⟨hlt, Nat.le_of_not_lt hsize, rfl, ?_⟩), fun _ π hπ => ?_⟩
      · intro hmode
        cases hmode
      · have hlen := hperm.length_eq
        rw [List.length_cons] at hlen
        simp only [size]
        omega
      · have hcount (a : GlobalVariable) : s.accessedArrays.count a ≤
            (s.accessedArrays.orderedInsert (· ≤ ·) arr).count a := by
          rw [hperm.count_eq]
          exact List.count_le_count_cons
        refine ⟨Covers.mono hπ subset_rfl hcount, fun t ht => ?_⟩
        unfold Accounts
        rw [List.toFinset_cons]
        apply Covers.charge hπ ht hcount
        left
        rw [hperm.count_eq, List.count_cons_self]
  · rw [if_neg hlt]
    refine ⟨s, bound, rfl, rfl, h, rfl, .inl rfl, fun _ π hπ => ⟨hπ, fun t ht => ?_⟩⟩
    unfold Accounts
    rw [List.toFinset_cons]
    apply Covers.charge hπ ht (fun _ => le_rfl)
    right
    omega

/-- Collecting a block covers an access to it, as long as the state does not go to top. -/
theorem insertBlock_spec (h : Shaped T P mode index s) (tag : ℕ) :
    Shaped T P mode index (s.insertBlock T (Block.at T P mode index tag)) ∧
      (s.insertBlock T (Block.at T P mode index tag)).r = s.r ∧
      (s.size ≤ T.associativity →
        (s.insertBlock T (Block.at T P mode index tag)).size ≤ T.associativity) ∧
      ((s.insertBlock T (Block.at T P mode index tag)).top = false → ∀ π,
        s.Accounts T P index π →
          (s.insertBlock T (Block.at T P mode index tag)).Accounts T P index (tag :: π)) := by
  unfold insertBlock
  dsimp only
  split_ifs with hfull
  · exact ⟨shaped_gotoTop h.r_index, rfl, fun _ => Nat.zero_le _,
      fun hcontra => absurd hcontra (by simp [gotoTop])⟩
  · refine ⟨⟨h.r_index, ?_, h.arrays_nil⟩, rfl, fun hsize => ?_, fun _ π hπ => ?_⟩
    · intro b hb
      rcases Finset.mem_insert.mp hb with rfl | hb
      · rw [Block.at_tag]
      · exact h.block_eq b hb
    · by_cases hmem : Block.at T P mode index tag ∈ s.accessedBlocks
      · simp only [size, Finset.insert_eq_of_mem hmem]
        exact hsize
      · exact Nat.le_of_not_lt fun hlt => hfull ⟨hmem, hlt⟩
    · apply Covers.mono hπ _ fun _ => le_rfl
      rw [List.toFinset_cons, tags, Finset.image_insert, Block.at_tag]
      intro t ht
      obtain ⟨ht, hnew⟩ := Finset.mem_sdiff.mp ht
      rw [Finset.mem_insert, not_or] at hnew
      exact Finset.mem_sdiff.mpr ⟨(Finset.mem_insert.mp ht).resolve_left hnew.1, hnew.2⟩

/-- Erasing excess entries keeps each array up to its bound. -/
theorem honorBound_spec {bound : GlobalVariable → Except Fault ℕ} {f : GlobalVariable → ℕ}
    (hf : ∀ a, bound a = .ok (f a)) (kept rest : List GlobalVariable) :
    ∃ l, honorBound bound kept rest = .ok l ∧
      ∀ a, min ((kept ++ rest).count a) (f a) ≤ l.count a := by
  induction rest generalizing kept with
  | nil =>
    refine ⟨kept, rfl, fun a => ?_⟩
    rw [List.append_nil]
    exact min_le_left _ _
  | cons arr rest ih =>
    rw [honorBound, hf, ok_bind]
    split_ifs with hexcess
    · obtain ⟨l, hl, hcount⟩ := ih kept
      refine ⟨l, hl, fun a => le_trans ?_ (hcount a)⟩
      by_cases ha : arr = a
      · subst a
        rw [List.count_append, List.count_cons_self] at hexcess ⊢
        rw [List.count_append]
        omega
      · rw [List.count_append, List.count_cons_of_ne ha, ← List.count_append]
    · obtain ⟨l, hl, hcount⟩ := ih (kept ++ [arr])
      refine ⟨l, hl, fun a => ?_⟩
      have := hcount a
      rwa [List.append_assoc, List.singleton_append] at this

theorem count_foldl_orderedInsert (xs ys : List GlobalVariable) (a : GlobalVariable) :
    (ys.foldl (fun l y => l.orderedInsert (· ≤ ·) y) xs).count a = xs.count a + ys.count a := by
  induction ys generalizing xs with
  | nil => simp
  | cons y ys ih =>
    rw [List.foldl_cons, ih, (List.perm_orderedInsert (· ≤ ·) y xs).count_eq, List.count_cons,
      List.count_cons]
    omega

/-- Joined arrays are counted as often as on either side, or have no block left. -/
theorem joinArrays_spec (hT : T.Geometry) (hindex : index < T.nSets)
    (h : ∀ b ∈ s.accessedBlocks, b = Block.at T P mode index b.tag) (ys : List GlobalVariable)
    (hnone : mode = .none → ys = []) :
    ∃ l, s.joinArrays T P mode ys = .ok l ∧ (mode = .none → l = s.accessedArrays) ∧
      ∀ a, max (s.accessedArrays.count a) (ys.count a) ≤ l.count a ∨
        (arrayBlocks T P index a).card ≤ l.count a + (arrayBlocks T P index a ∩ s.tags).card := by
  cases mode with
  | none =>
    refine ⟨s.accessedArrays, rfl, fun _ => rfl, fun a => .inl ?_⟩
    simp [hnone rfl]
  | setwise =>
    choose f hf hblocks using getPerArrayBound_spec hT hindex h
    obtain ⟨l, hl, hcount⟩ := honorBound_spec hf [] ((ys.diff s.accessedArrays).foldl
      (fun arrays array => arrays.orderedInsert (· ≤ ·) array) s.accessedArrays)
    refine ⟨l, hl, fun hmode => (by cases hmode), fun a => ?_⟩
    have ha := hcount a
    have hfa := hblocks a
    rw [List.nil_append, count_foldl_orderedInsert, List.count_diff] at ha
    omega

theorem Accounts.join (hleft : s.Accounts T P index π) {u : SetWiseCountingPersistence}
    (htags : s.tags ⊆ u.tags)
    (hcount : ∀ a, s.accessedArrays.count a ≤ u.accessedArrays.count a ∨
      (arrayBlocks T P index a).card ≤
        u.accessedArrays.count a + (arrayBlocks T P index a ∩ u.tags).card) :
    u.Accounts T P index π := by
  have hknown : Covers (arrayBlocks T P index) π.toFinset u.tags
      fun a => s.accessedArrays.count a :=
    Covers.mono hleft (Finset.sdiff_subset_sdiff subset_rfl htags) fun _ => le_rfl
  exact hknown.cap hcount

theorem checkSize_spec (hr : s.r = 0 ∨ getindex T s.r = index)
    (hblocks : ∀ b ∈ s.accessedBlocks, b = Block.at T P mode index b.tag)
    (harrays : mode = .none → s.accessedArrays = []) :
    WellFormed T P mode index (checkSize T s) ∧ ((checkSize T s).top = false → checkSize T s = s) := by
  unfold checkSize
  split_ifs with hsize
  · exact ⟨wellFormed_gotoTop hr, fun hcontra => absurd hcontra (by simp [gotoTop])⟩
  · exact ⟨⟨hr, hblocks, harrays, Nat.le_of_not_lt hsize⟩, fun _ => rfl⟩

theorem r_checkSize (s : SetWiseCountingPersistence) : (checkSize T s).r = s.r := by
  unfold checkSize
  split_ifs <;> rfl

theorem join_spec (hT : T.Geometry) (hindex : index < T.nSets) {x y : SetWiseCountingPersistence}
    (hx : Shaped T P mode index x) (hy : Shaped T P mode index y) :
    ∃ u, x.join T P mode y = .ok u ∧ WellFormed T P mode index u ∧ u.r = x.r ∧ (u.top = false →
      x.top = false ∧ y.top = false ∧
      ∀ π, x.Accounts T P index π ∨ y.Accounts T P index π → u.Accounts T P index π) := by
  unfold join
  by_cases htop : (x.top || y.top) = true
  · rw [if_pos htop]
    exact ⟨_, rfl, wellFormed_gotoTop hx.r_index, rfl,
      fun hcontra => absurd hcontra (by simp [gotoTop])⟩
  · rw [if_neg htop]
    simp only [Bool.or_eq_true, not_or, Bool.not_eq_true] at htop
    have hblocks : ∀ b ∈ x.accessedBlocks ∪ y.accessedBlocks, b = Block.at T P mode index b.tag := by
      intro b hb
      rcases Finset.mem_union.mp hb with hb | hb
      · exact hx.block_eq b hb
      · exact hy.block_eq b hb
    obtain ⟨l, hl, hnone, hcount⟩ := joinArrays_spec
      (s := { x with accessedBlocks := x.accessedBlocks ∪ y.accessedBlocks }) hT hindex hblocks
      y.accessedArrays hy.arrays_nil
    dsimp only
    rw [hl, ok_bind]
    have harrays (hmode : mode = .none) : l = [] := (hnone hmode).trans (hx.arrays_nil hmode)
    obtain ⟨hw, heq⟩ := checkSize_spec (P := P)
      (s := ⟨x.r, x.top, x.accessedBlocks ∪ y.accessedBlocks, l⟩) hx.r_index hblocks harrays
    refine ⟨_, rfl, hw, r_checkSize _, fun hu => ⟨htop.1, htop.2, fun π hπ => ?_⟩⟩
    rw [heq hu]
    rcases hπ with hπ | hπ
    · apply hπ.join (Finset.image_subset_image Finset.subset_union_left)
      intro a
      exact (hcount a).imp_left fun h => (le_max_left _ _).trans h
    · apply hπ.join (Finset.image_subset_image Finset.subset_union_right)
      intro a
      exact (hcount a).imp_left fun h => (le_max_right _ _).trans h

/-! ## Runs -/

variable (T P mode index)

/-- Precise accesses are routed to the set of their line. -/
inductive CountingOp where
  | update (addr : AbstractAddress) (precise : addr.isPrecise = true)
      (inSet : getindex T addr.interval.lower = index)
  | potentialUpdate (addr : AbstractAddress)

/-- The analysis of the set `index`, with the paths of accesses to that set since
the scope was entered. -/
def analysis : Collecting.Analysis {r : ℕ // r = 0 ∨ getindex T r = index} (CountingOp T index)
    SetWiseCountingPersistence (List ℕ) Fault where
  start r := new r
  step
    | .update addr _ _, s => Prod.fst <$> s.update T P mode addr .load false .clUnknown
    | .potentialUpdate addr, s => Prod.fst <$> s.potentialUpdate T P mode addr .load false
  join x y := x.join T P mode y
  described _ := {[]}
  concrete
    | .update addr _ _, π, π' => π' = getTag T addr.interval.lower :: π
    | .potentialUpdate addr, π, π' => π' = π ∨ ∃ tag, MayTouch T P index addr tag ∧ π' = tag :: π

/-- The step does not count a further array in a state that is full. -/
def Room (op : CountingOp T index) (s : SetWiseCountingPersistence) : Prop :=
  match op with
  | .update _ _ _ => True
  | .potentialUpdate addr => s.top = false → s.size = T.associativity →
      ∀ array, addr.getArray = some array → ∀ bound, s.getPerArrayBound T P array = .ok bound →
        bound ≤ s.accessedArrays.count array

/-- A well-formed state that accounts for all paths of `K`, unless it is top. -/
def Describes (s : SetWiseCountingPersistence) (K : Set (List ℕ)) : Prop :=
  WellFormed T P mode index s ∧ (s.top = false → ∀ π ∈ K, s.Accounts T P index π)

variable {T P mode index}

theorem checkIndex_ok (h : WellFormed T P mode index s) {addr : AbstractAddress}
    (hprecise : addr.isPrecise = true) (hindex : getindex T addr.interval.lower = index) :
    s.checkIndex T addr = .ok () := by
  have hsame : addr.interval.lower = addr.interval.upper := by
    simp only [AbstractAddress.isPrecise, Bool.and_eq_true, beq_iff_eq] at hprecise
    exact hprecise.2
  unfold checkIndex getindexOf
  split_ifs with hr
  · have hs := h.r_index.resolve_left hr
    simp [← hsame, hindex, hs]
  · rfl

theorem describes_step (hT : T.Geometry) (hindex : index < T.nSets) (op : CountingOp T index)
    (s : SetWiseCountingPersistence) (K : Set (List ℕ)) (h : Describes T P mode index s K)
    (hop : Room T P index op s) :
    ∃ s', (analysis T P mode index).step op s = .ok s' ∧
      Describes T P mode index s' ((analysis T P mode index).image op K) := by
  obtain ⟨hw, hK⟩ := h
  cases htop : s.top with
  | true =>
    have hsame : (analysis T P mode index).step op s = .ok s := by
      cases op with
      | update addr hprecise hin => simp [analysis, update, htop, Functor.map, Except.map]
      | potentialUpdate addr => simp [analysis, potentialUpdate, htop, Functor.map, Except.map]
    exact ⟨s, hsame, hw, fun hcontra => absurd hcontra (by simp [htop])⟩
  | false =>
    cases op with
    | update addr hprecise hin =>
      refine ⟨s.insertBlock T (Block.at T P mode index (getTag T addr.interval.lower)), ?_, ?_, ?_⟩
      · simp [analysis, update, htop, checkIndex_ok hw hprecise hin, Block.new_eq hT hprecise hin,
          Functor.map, Except.map]
      · obtain ⟨hshaped, _, hsize, _⟩ :=
          insertBlock_spec hw.shaped (getTag T addr.interval.lower)
        exact hshaped.wellFormed (hsize hw.size_le)
      · rintro hnotTop _ ⟨π, hπ, rfl⟩
        exact (insertBlock_spec hw.shaped _).2.2.2 hnotTop π (hK htop π hπ)
    | potentialUpdate addr =>
      have hgiveUp (hstep : (analysis T P mode index).step (.potentialUpdate addr) s =
          .ok s.gotoTop) : ∃ s', (analysis T P mode index).step (.potentialUpdate addr) s = .ok s' ∧
            Describes T P mode index s'
              ((analysis T P mode index).image (.potentialUpdate addr) K) :=
        ⟨_, hstep, wellFormed_gotoTop hw.r_index,
          fun hcontra => absurd hcontra (by simp [gotoTop])⟩
      cases mode with
      | none =>
        apply hgiveUp
        simp [analysis, potentialUpdate, htop, Functor.map, Except.map]
      | setwise =>
        cases harray : addr.getArray with
        | none =>
          apply hgiveUp
          simp [analysis, potentialUpdate, htop, harray, Functor.map, Except.map]
        | some arr =>
          obtain ⟨s', bound, hbound, hs', hshaped, _, hcases, hcovers⟩ :=
            countArray_spec hT hindex hw.shaped arr
          have hsize : s'.size ≤ T.associativity := by
            rcases hcases with rfl | ⟨_, rfl⟩ | ⟨hlt, _, _, hsize⟩
            · exact hw.size_le
            · exact Nat.zero_le _
            · have hle := hw.size_le
              by_contra hlarge
              exact absurd (hop htop (by omega) arr harray bound hbound) (Nat.not_le.mpr hlt)
          refine ⟨s', ?_, hshaped.wellFormed hsize, ?_⟩
          · simp [analysis, potentialUpdate, htop, harray, hs', Functor.map, Except.map]
          · rintro hnotTop π' ⟨π, hπ, hπ'⟩
            obtain ⟨hstay, htouch⟩ := hcovers hnotTop π (hK htop π hπ)
            rcases hπ' with rfl | ⟨tag, htag, rfl⟩
            · exact hstay
            · apply htouch
              simpa only [MayTouch, harray] using htag

theorem describes_join (hT : T.Geometry) (hindex : index < T.nSets)
    (s t : SetWiseCountingPersistence) (K L : Set (List ℕ)) (hs : Describes T P mode index s K)
    (ht : Describes T P mode index t L) :
    ∃ u, (analysis T P mode index).join s t = .ok u ∧ Describes T P mode index u (K ∪ L) := by
  obtain ⟨u, hu, hw, _, hcovers⟩ := join_spec hT hindex hs.1.shaped ht.1.shaped
  refine ⟨u, hu, hw, fun htop π hπ => ?_⟩
  obtain ⟨hstop, httop, haccounts⟩ := hcovers htop
  apply haccounts
  exact hπ.imp (hs.2 hstop π) (ht.2 httop π)

theorem describes_new (r : {r : ℕ // r = 0 ∨ getindex T r = index}) :
    Describes T P mode index ((analysis T P mode index).start r)
      ((analysis T P mode index).described r) := by
  refine ⟨⟨r.2, fun b hb => absurd hb (Finset.notMem_empty b), fun _ => rfl, Nat.zero_le _⟩, ?_⟩
  rintro _ π rfl
  exact covers_empty _ _

/-- In a run that never counts an array in a full state, a state holds at most
`ASSOCIATIVITY` entries. If a tag is persistent, at most `ASSOCIATIVITY` distinct
tags were accessed since the scope was entered on any path, so that each of them
is still in the cache. -/
theorem countingRun_sound (hT : T.Geometry) (hindex : index < T.nSets)
    (r : Collecting.Run {r : ℕ // r = 0 ∨ getindex T r = index} (CountingOp T index))
    (hr : (analysis T P mode index).Every (fun op s _ => Room T P index op s) r) :
    ∃ s, (analysis T P mode index).eval r = .ok s ∧ s.size ≤ T.associativity ∧
      ∀ O tag, isPersistent T O s tag = true → ∀ π ∈ (analysis T P mode index).collect r,
        π.toFinset.card ≤ T.associativity ∧
        ∀ c : CacheSet ℕ T.associativity, ∀ t ∈ π, t ∈ c.run π := by
  obtain ⟨s, hs, hw, hK⟩ := Collecting.Analysis.Run.sound (Describes T P mode index) describes_new
    (describes_step hT hindex) (describes_join hT hindex) r hr
  refine ⟨s, hs, hw.size_le, fun O tag hpers π hπ => ?_⟩
  have htop : s.top = false := by
    unfold isPersistent at hpers
    split_ifs at hpers
    · rw [Bool.and_eq_true, Bool.not_eq_true'] at hpers
      exact hpers.1
    · rwa [Bool.not_eq_true'] at hpers
  have hcard := ((hK htop π hπ).card_le hw.shaped).trans hw.size_le
  exact ⟨hcard, fun c t ht => (c.within_run ht ((recency_lt_card ht).trans_le hcard)).1⟩

/-- One array of 128 bytes at address 0. -/
def exampleAddresses : StaticAddressProvider := .single 0 128 (by decide) (by decide)

/-- A precise access and an access into the array, joined with a fresh state. -/
theorem countingRun_sound_twoWays :
    let T := fourSets 2
    let first : Collecting.Run {r : ℕ // r = 0 ∨ getindex T r = 0} (CountingOp T 0) :=
      .step (.start ⟨0, .inl rfl⟩) (.update (.ofAddress 4 (by decide)) rfl (by decide))
    let r : Collecting.Run {r : ℕ // r = 0 ∨ getindex T r = 0} (CountingOp T 0) :=
      .join (.step first (.potentialUpdate ⟨⟨0, 124, by decide, by decide⟩, some 0⟩))
        (.start ⟨0, .inl rfl⟩)
    ∃ s, (analysis T exampleAddresses .setwise 0).eval r = .ok s ∧ s.size ≤ T.associativity ∧
      ∀ O tag, isPersistent T O s tag = true →
        ∀ π ∈ (analysis T exampleAddresses .setwise 0).collect r,
          π.toFinset.card ≤ T.associativity ∧
          ∀ c : CacheSet ℕ T.associativity, ∀ t ∈ π, t ∈ c.run π := by
  intro T first r
  have hfirst : (analysis T exampleAddresses .setwise 0).eval first =
      .ok ⟨0, false, {⟨0, [0]⟩}, []⟩ := by decide
  apply countingRun_sound (geometry_fourSets 2) (by decide) r
  refine ⟨⟨⟨trivial, fun _ _ => trivial⟩, ?_⟩, trivial⟩
  intro s hs _ hfull
  rw [hfirst] at hs
  cases hs
  exact absurd hfull (by decide)

/-- In a direct-mapped set, an array with two blocks is counted twice. -/
theorem array_counted_twice :
    let T := fourSets 1
    let access : CountingOp T 0 := .potentialUpdate ⟨⟨0, 124, by decide, by decide⟩, some 0⟩
    let r : Collecting.Run {r : ℕ // r = 0 ∨ getindex T r = 0} (CountingOp T 0) :=
      .step (.step (.start ⟨0, .inl rfl⟩) access) access
    ∃ s, (analysis T exampleAddresses .setwise 0).eval r = .ok s ∧ s.top = false ∧
      T.associativity < s.size ∧ (∀ O tag, isPersistent T O s tag = true) ∧
      ∃ π ∈ (analysis T exampleAddresses .setwise 0).collect r, T.associativity < π.toFinset.card ∧
        ∃ t ∈ π, ∀ c : CacheSet ℕ T.associativity, t ∉ c.run π := by
  intro T access r
  have heval : (analysis T exampleAddresses .setwise 0).eval r =
      .ok ⟨0, false, ∅, [0, 0]⟩ := by decide
  refine ⟨_, heval, rfl, by decide, fun O tag => ?_, [1, 0], ?_, by decide, 0, by decide, ?_⟩
  · unfold isPersistent
    rw [if_neg (by simp [T, fourSets])]
    rfl
  · have htouch (tag : ℕ) (h : tag ∈ arrayBlocks T exampleAddresses 0 0) :
        MayTouch T exampleAddresses 0 ⟨⟨0, 124, by decide, by decide⟩, some 0⟩ tag := h
    have hpath : [0] ∈ (analysis T exampleAddresses .setwise 0).image access {[]} :=
      ⟨[], rfl, .inr ⟨0, htouch 0 (mem_arrayBlocks.mpr ⟨0, by decide⟩), rfl⟩⟩
    exact ⟨[0], hpath, .inr ⟨1, htouch 1 (mem_arrayBlocks.mpr ⟨64, by decide⟩), rfl⟩⟩
  · intro c hmem
    have hlines : (c.run [1, 0]).lines = [1] := rfl
    rw [CacheSet.mem_def, hlines] at hmem
    exact absurd hmem (by decide)

end SetWiseCountingPersistence

end Llvmta
