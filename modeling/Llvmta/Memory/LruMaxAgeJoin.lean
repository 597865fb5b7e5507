import Llvmta.Memory.LruMaxAgeOperations

/-!
# The join of the must analysis

`join` walks both operands from their oldest entries on and outputs an entry
when its tag is still ahead in the other operand. The invariant of the loop is
symmetric in the operands, so that one lemma covers both branches.
-/

namespace Llvmta

open Checked AgedTag

namespace LruMaxAgeAbstractCache

variable {T : CacheTraits} {A : ℕ}

/-- `e` is the older one of two entries for the same tag. -/
def Joined (p q : List AgedTag) (e : AgedTag) : Prop :=
  ∃ f ∈ p, ∃ g ∈ q, f.tag = e.tag ∧ g.tag = e.tag ∧ e.age = max f.age g.age

theorem Joined.symm {p q : List AgedTag} {e : AgedTag} (h : Joined p q e) : Joined q p e := by
  obtain ⟨f, hf, g, hg, hft, hgt, hage⟩ := h
  exact ⟨g, hg, f, hf, hgt, hft, by rw [hage, max_comm]⟩

theorem joined_comm {p q : List AgedTag} {e : AgedTag} : Joined p q e ↔ Joined q p e :=
  ⟨Joined.symm, Joined.symm⟩

/-- The state of the join loop: `p` and `q` are left, `o` is output. All tags
that are or will be output are among `tags`. -/
structure JoinInvariant (tags : List ℕ) (p q o : List AgedTag) : Prop where
  sorted_left : Sorted p
  sorted_right : Sorted q
  distinct_left : Distinct p
  distinct_right : Distinct q
  sorted : Sorted o
  distinct : Distinct o
  before : ∀ z, z ∈ p ∨ z ∈ q → ∀ e ∈ o, z.Before e ∨ z.tag = e.tag
  done : ∀ e ∈ o, ¬ (e.tag ∈ p.map tag ∧ e.tag ∈ q.map tag)
  mem_tags : ∀ e ∈ o, e.tag ∈ tags
  common : ∀ t, t ∈ p.map tag → t ∈ q.map tag → t ∈ tags

namespace JoinInvariant

variable {tags : List ℕ} {p q o : List AgedTag} {e : AgedTag}

theorem symm (h : JoinInvariant tags p q o) : JoinInvariant tags q p o where
  sorted_left := h.sorted_right
  sorted_right := h.sorted_left
  distinct_left := h.distinct_right
  distinct_right := h.distinct_left
  sorted := h.sorted
  distinct := h.distinct
  before := fun z hz => h.before z hz.symm
  done := fun e he hpq => h.done e he hpq.symm
  mem_tags := h.mem_tags
  common := fun t hp hq => h.common t hq hp

/-- One round without output. -/
theorem skip (h : JoinInvariant tags (p ++ [e]) q o) : JoinInvariant tags p q o where
  sorted_left := h.sorted_left.append.1
  sorted_right := h.sorted_right
  distinct_left := h.distinct_left.sublist (List.sublist_append_left p [e])
  distinct_right := h.distinct_right
  sorted := h.sorted
  distinct := h.distinct
  before := fun z hz => h.before z (hz.imp_left fun hz => List.mem_append_left _ hz)
  done := fun f hf hpq => h.done f hf ⟨by simp [hpq.1], hpq.2⟩
  mem_tags := h.mem_tags
  common := fun t hp hq => h.common t (by rw [List.map_append]; exact List.mem_append_left _ hp) hq

theorem last_notMem (h : JoinInvariant tags (p ++ [e]) q o) : e.tag ∉ p.map tag := by
  have hd := h.distinct_left
  rw [Distinct, List.map_append, List.nodup_append'] at hd
  intro hmem
  exact hd.2.2 hmem (by simp)

/-- One round that outputs the last entry of the operand it consumes. -/
theorem output (h : JoinInvariant tags (p ++ [e]) q o) (hq : ∀ z ∈ q, z.Before e ∨ z = e)
    (he : e.tag ∈ q.map tag) : JoinInvariant tags p q (e :: o) := by
  have hmem : e.tag ∈ (p ++ [e]).map tag := by simp
  have hne : ∀ f ∈ o, f.tag ≠ e.tag := by
    intro f hf hfe
    rw [← hfe] at he hmem
    exact h.done f hf ⟨hmem, he⟩
  have heo : ∀ f ∈ o, e.Before f := by
    intro f hf
    rcases h.before e (.inl (by simp)) f hf with hb | ht
    · exact hb
    · exact absurd ht.symm (hne f hf)
  refine { h.skip with
    sorted := sorted_cons.mpr ⟨heo, h.sorted⟩
    distinct := distinct_cons.mpr ⟨hne, h.distinct⟩
    before := ?_
    done := ?_
    mem_tags := ?_ }
  · intro z hz f hf
    rcases List.mem_cons.mp hf with rfl | hf
    · rcases hz with hz | hz
      · exact .inl (h.sorted_left.append.2.2 z hz f (by simp))
      · exact (hq z hz).imp id (congrArg tag)
    · exact h.skip.before z hz f hf
  · intro f hf
    rcases List.mem_cons.mp hf with rfl | hf
    · exact fun hpq => h.last_notMem hpq.1
    · exact h.skip.done f hf
  · intro f hf
    rcases List.mem_cons.mp hf with rfl | hf
    · exact h.common f.tag hmem he
    · exact h.mem_tags f hf

theorem length_le (h : JoinInvariant tags p q o) : o.length ≤ tags.length := by
  have hsub : (o.map tag).Subperm tags := by
    apply List.subperm_of_subset h.distinct
    intro t ht
    obtain ⟨e, he, rfl⟩ := List.mem_map.mp ht
    exact h.mem_tags e he
  simpa using hsub.length_le

/-- What is left to join when the last entry of an operand is consumed. -/
theorem joined_last (h : JoinInvariant tags (p ++ [e]) q o) (hq : ∀ z ∈ q, z.Before e ∨ z = e)
    {c : AgedTag} : Joined (p ++ [e]) q c ↔ (c = e ∧ e.tag ∈ q.map tag) ∨ Joined p q c := by
  have hage : ∀ z ∈ q, z.age ≤ e.age := by
    intro z hz
    rcases hq z hz with hb | rfl
    · exact hb.age_le
    · exact le_rfl
  constructor
  · rintro ⟨f, hf, g, hg, hft, hgt, hc⟩
    rcases List.mem_append.mp hf with hf | hf
    · exact .inr ⟨f, hf, g, hg, hft, hgt, hc⟩
    · obtain rfl := List.mem_singleton.mp hf
      rw [max_eq_left (hage g hg)] at hc
      refine .inl ⟨?_, List.mem_map.mpr ⟨g, hg, hgt.trans hft.symm⟩⟩
      cases c
      cases f
      simp_all
  · rintro (⟨rfl, hmem⟩ | ⟨f, hf, g, hg, hrest⟩)
    · obtain ⟨g, hg, hgt⟩ := List.mem_map.mp hmem
      exact ⟨c, by simp, g, hg, rfl, hgt, (max_eq_left (hage g hg)).symm⟩
    · exact ⟨f, List.mem_append_left _ hf, g, hg, hrest⟩

end JoinInvariant

/-! ## The loop -/

/-- The arrays start with the entries `l`, which do not have to be all of them. -/
structure Starts (s : LruMaxAgeAbstractCache) (l : List AgedTag) : Prop where
  tags_eq : ∃ u, s.tags = l.map tag ++ u
  ages_eq : ∃ v, s.ages = l.map age ++ v

theorem Holds.starts {s : LruMaxAgeAbstractCache} {l : List AgedTag} (h : Holds A s l) :
    Starts s l := by
  obtain ⟨_, ⟨u, ht, _⟩, ⟨v, ha, _⟩⟩ := h
  exact ⟨⟨u, ht⟩, ⟨v, ha⟩⟩

namespace Starts

variable {s : LruMaxAgeAbstractCache} {p : List AgedTag} {e : AgedTag}

theorem init (h : Starts s (p ++ [e])) : Starts s p := by
  obtain ⟨⟨u, ht⟩, ⟨v, ha⟩⟩ := h
  exact ⟨⟨e.tag :: u, by simp [ht]⟩, ⟨e.age :: v, by simp [ha]⟩⟩

theorem read_tag (h : Starts s (p ++ [e])) : read s.tags ((p ++ [e]).length - 1) = .ok e.tag := by
  obtain ⟨u, ht⟩ := h.tags_eq
  rw [ht]
  simpa using read_append (p.map tag) u e.tag (i := p.length) (by simp)

theorem read_age (h : Starts s (p ++ [e])) : read s.ages ((p ++ [e]).length - 1) = .ok e.age := by
  obtain ⟨v, ha⟩ := h.ages_eq
  rw [ha]
  simpa using read_append (p.map age) v e.age (i := p.length) (by simp)

theorem take_tags (h : Starts s p) : s.tags.take p.length = p.map tag := by
  obtain ⟨u, ht⟩ := h.tags_eq
  rw [ht]
  exact List.take_left' (List.length_map tag)

end Starts

/-- The last elements of the output arrays are the entries `o`. -/
structure Filled (A : ℕ) (b : JoinBuffer) (o : List AgedTag) : Prop where
  out_eq : b.out + o.length = A
  tags_eq : ∃ u, b.outTags = u ++ o.map tag ∧ u.length = b.out
  ages_eq : ∃ v, b.outAges = v ++ o.map age ∧ v.length = b.out

theorem outputLast_skip {z : LruMaxAgeAbstractCache} {p : List AgedTag} {e : AgedTag}
    (hz : Starts z (p ++ [e])) {searched : List ℕ} (he : e.tag ∉ searched) (b : JoinBuffer) :
    outputLast z (p ++ [e]).length searched b = .ok b := by
  simp only [outputLast, hz.read_age, hz.read_tag, ok_bind, he, if_false]

theorem outputLast_output {z : LruMaxAgeAbstractCache} {p o : List AgedTag} {e : AgedTag}
    (hz : Starts z (p ++ [e])) {searched : List ℕ} (he : e.tag ∈ searched) {b : JoinBuffer}
    (hb : Filled A b o) (ho : o.length < A) :
    ∃ b', outputLast z (p ++ [e]).length searched b = .ok b' ∧ Filled A b' (e :: o) := by
  obtain ⟨hout, ⟨u, ht, hu⟩, ⟨v, ha, hv⟩⟩ := hb
  have hne : b.out ≠ 0 := by omega
  have hpos : u ≠ [] ∧ v ≠ [] := by
    constructor <;> rintro rfl <;> simp at hu hv <;> omega
  obtain ⟨u, x, rfl⟩ := (List.eq_nil_or_concat' u).resolve_left hpos.1
  obtain ⟨v, y, rfl⟩ := (List.eq_nil_or_concat' v).resolve_left hpos.2
  rw [List.length_append, List.length_singleton] at hu hv
  have hwt : write b.outTags (b.out - 1) e.tag = .ok (u ++ e.tag :: o.map tag) := by
    rw [ht, List.append_assoc]
    exact write_append u (o.map tag) x e.tag (by omega)
  have hwa : write b.outAges (b.out - 1) e.age = .ok (v ++ e.age :: o.map age) := by
    rw [ha, List.append_assoc]
    exact write_append v (o.map age) y e.age (by omega)
  refine ⟨⟨u ++ e.tag :: o.map tag, v ++ e.age :: o.map age, b.out - 1⟩, ?_, ?_⟩
  · simp only [outputLast, hz.read_age, hz.read_tag, ok_bind, he, if_true, hne, if_false, hwt, hwa]
  · refine ⟨?_, ⟨u, rfl, by dsimp only; omega⟩, ⟨v, rfl, by dsimp only; omega⟩⟩
    dsimp only
    rw [List.length_cons]
    omega

/-- What the remaining rounds of the loop do. -/
def JoinsTo (A : ℕ) (p q o : List AgedTag) (b : JoinBuffer) : Prop :=
  ∃ o', Filled A b o' ∧ Sorted o' ∧ Distinct o' ∧ ∀ e, e ∈ o' ↔ e ∈ o ∨ Joined p q e

/-- One round that consumes the last entry of `z`. -/
theorem joinRound {z : LruMaxAgeAbstractCache} {tags : List ℕ} {p q o : List AgedTag}
    {e : AgedTag} (hz : Starts z (p ++ [e])) (h : JoinInvariant tags (p ++ [e]) q o)
    (hq : ∀ f ∈ q, f.Before e ∨ f = e) (htags : tags.length ≤ A) {b : JoinBuffer}
    (hb : Filled A b o) :
    ∃ b' o', outputLast z (p ++ [e]).length (q.map tag) b = .ok b' ∧ Filled A b' o' ∧
      JoinInvariant tags p q o' ∧ ∀ c, (c ∈ o' ∨ Joined p q c) ↔ (c ∈ o ∨ Joined (p ++ [e]) q c) := by
  by_cases he : e.tag ∈ q.map tag
  · have hnext := h.output hq he
    have hlen := hnext.length_le
    rw [List.length_cons] at hlen
    obtain ⟨b', hout, hb'⟩ := outputLast_output hz he hb (by omega)
    refine ⟨b', e :: o, hout, hb', hnext, fun c => ?_⟩
    rw [h.joined_last hq, List.mem_cons]
    tauto
  · refine ⟨b, o, outputLast_skip hz he b, hb, h.skip, fun c => ?_⟩
    rw [h.joined_last hq]
    tauto

theorem joinLoop_spec {x y : LruMaxAgeAbstractCache} {tags : List ℕ} (htags : tags.length ≤ A)
    (fuel : ℕ) (p q o : List AgedTag) (hfuel : p.length + q.length ≤ fuel) (hx : Starts x p)
    (hy : Starts y q) (h : JoinInvariant tags p q o) {b : JoinBuffer} (hb : Filled A b o) :
    ∃ b', joinLoop x y fuel p.length q.length b = .ok b' ∧ JoinsTo A p q o b' := by
  induction fuel generalizing p q o b with
  | zero =>
    have hp : p = [] := List.eq_nil_of_length_eq_zero (by omega)
    refine ⟨b, rfl, o, hb, h.sorted, h.distinct, ?_⟩
    simp [hp, Joined]
  | succ fuel ih =>
    -- both rounds continue with the induction hypothesis for the shorter operand
    have consumeLeft (p' : List AgedTag) (e : AgedTag) (hp : p = p' ++ [e])
        (hq : ∀ f ∈ q, f.Before e ∨ f = e)
        (hg : xElemIsGreater x y p.length q.length = .ok true) :
        ∃ b', joinLoop x y (fuel + 1) p.length q.length b = .ok b' ∧ JoinsTo A p q o b' := by
      subst p
      obtain ⟨b₁, o₁, hout, hb₁, h₁, hmem₁⟩ := joinRound hx h hq htags hb
      rw [← hy.take_tags] at hout
      obtain ⟨b₂, hloop, o₂, hb₂, hs₂, hd₂, hmem₂⟩ :=
        ih p' q o₁ (by simp at hfuel; omega) hx.init hy h₁ hb₁
      have hne : ¬ ((p' ++ [e]).length = 0 ∧ q.length = 0) := by simp
      refine ⟨b₂, ?_, o₂, hb₂, hs₂, hd₂, fun c => (hmem₂ c).trans (hmem₁ c)⟩
      simp only [joinLoop, hne, if_false, hg, ok_bind, if_true, hout]
      simpa using hloop
    have consumeRight (q' : List AgedTag) (e : AgedTag) (hq : q = q' ++ [e])
        (hp : ∀ f ∈ p, f.Before e ∨ f = e)
        (hg : xElemIsGreater x y p.length q.length = .ok false) :
        ∃ b', joinLoop x y (fuel + 1) p.length q.length b = .ok b' ∧ JoinsTo A p q o b' := by
      subst q
      obtain ⟨b₁, o₁, hout, hb₁, h₁, hmem₁⟩ := joinRound hy h.symm hp htags hb
      rw [← hx.take_tags] at hout
      obtain ⟨b₂, hloop, o₂, hb₂, hs₂, hd₂, hmem₂⟩ :=
        ih p q' o₁ (by simp at hfuel; omega) hx hy.init h₁.symm hb₁
      have hne : ¬ (p.length = 0 ∧ (q' ++ [e]).length = 0) := by simp
      refine ⟨b₂, ?_, o₂, hb₂, hs₂, hd₂, fun c => ?_⟩
      · simp only [joinLoop, hne, if_false, hg, ok_bind, hout]
        simpa using hloop
      · rw [hmem₂ c, joined_comm, hmem₁ c, joined_comm]
    rcases List.eq_nil_or_concat' p with rfl | ⟨p', e, rfl⟩
    · rcases List.eq_nil_or_concat' q with rfl | ⟨q', f, rfl⟩
      · refine ⟨b, rfl, o, hb, h.sorted, h.distinct, ?_⟩
        simp [Joined]
      · exact consumeRight q' f rfl (by simp) rfl
    · rcases List.eq_nil_or_concat' q with rfl | ⟨q', f, rfl⟩
      · exact consumeLeft p' e rfl (by simp) (by simp [xElemIsGreater])
      · have hg : xElemIsGreater x y (p' ++ [e]).length (q' ++ [f]).length =
            .ok (decide (f.age < e.age ∨ e.age = f.age ∧ f.tag ≤ e.tag)) := by
          have hp : (p' ++ [e]).length ≠ 0 := by simp
          have hq : (q' ++ [f]).length ≠ 0 := by simp
          simp only [xElemIsGreater, hp, hq, if_false, hx.read_age, hy.read_age, hx.read_tag,
            hy.read_tag, ok_bind]
        have last_le {l : List AgedTag} {c d : AgedTag} (hl : Sorted (l ++ [c]))
            (hcd : c.Before d ∨ c = d) : ∀ z ∈ l ++ [c], z.Before d ∨ z = d := by
          intro z hz
          rcases List.mem_append.mp hz with hz | hz
          · have hzc := hl.append.2.2 z hz c (by simp)
            rcases hcd with hcd | rfl
            · exact .inl (hzc.trans hcd)
            · exact .inl hzc
          · rwa [List.mem_singleton.mp hz]
        by_cases hc : f.age < e.age ∨ e.age = f.age ∧ f.tag ≤ e.tag
        · apply consumeLeft p' e rfl _ (by rw [hg, decide_eq_true hc])
          apply last_le h.sorted_right
          rcases eq_or_before f e with he | hb | hb
          · exact .inr he
          · exact .inl hb
          · unfold Before at hb
            omega
        · apply consumeRight q' f rfl _ (by rw [hg, decide_eq_false hc])
          apply last_le h.sorted_left
          unfold Before
          omega

/-- The join keeps the tags of both operands with the greater age. -/
theorem join_spec {x y : LruMaxAgeAbstractCache} {p q : List AgedTag}
    (hx : Holds T.associativity x p) (hy : Holds T.associativity y q)
    (hp : WellFormed T.associativity p) (hq : WellFormed T.associativity q) :
    ∃ s' l', join T x y = .ok s' ∧ Holds T.associativity s' l' ∧ WellFormed T.associativity l' ∧
      ∀ e, e ∈ l' ↔ Joined p q e := by
  have hinv : JoinInvariant (p.map tag) p q [] :=
    { sorted_left := hp.sorted
      sorted_right := hq.sorted
      distinct_left := hp.distinct
      distinct_right := hq.distinct
      sorted := Sorted.nil
      distinct := Distinct.nil
      before := by simp
      done := by simp
      mem_tags := by simp
      common := fun t ht _ => ht }
  have hb : Filled T.associativity ⟨List.replicate T.associativity 0,
      List.replicate T.associativity 0, T.associativity⟩ [] :=
    ⟨rfl, ⟨_, (List.append_nil _).symm, by simp⟩, ⟨_, (List.append_nil _).symm, by simp⟩⟩
  obtain ⟨b, hloop, o, ⟨hout, ⟨u, hu, hul⟩, ⟨v, hv, hvl⟩⟩, hs, hd, hmem⟩ :=
    joinLoop_spec (by simpa using hx.length_le) (x.size + y.size) p q []
      (by rw [hx.size_eq, hy.size_eq]) hx.starts hy.starts hinv hb
  rw [← hx.size_eq, ← hy.size_eq] at hloop
  simp only [List.not_mem_nil, false_or] at hmem
  have hsmall : T.associativity < 256 ∨ o = [] := by
    rcases hp.small with hA | rfl
    · exact .inl hA
    · refine .inr (List.eq_nil_iff_forall_not_mem.mpr fun e he => ?_)
      obtain ⟨f, hf, _⟩ := (hmem e).mp he
      exact List.not_mem_nil hf
  have hsize : toWay (T.associativity - b.out) = o.length := by
    have hlen : T.associativity - b.out = o.length := by omega
    rw [hlen]
    rcases hsmall with hA | rfl
    · exact toWay_of_lt (by omega)
    · rfl
  obtain ⟨_, ⟨xu, hxt, hxu⟩, ⟨xv, hxa, hxv⟩⟩ := hx
  have hot : (b.outTags.drop b.out).take o.length = o.map tag := by
    rw [hu, ← hul, List.drop_left]
    simp
  have hoa : (b.outAges.drop b.out).take o.length = o.map age := by
    rw [hv, ← hvl, List.drop_left]
    simp
  refine ⟨⟨o.map tag ++ x.tags.drop o.length, o.map age ++ x.ages.drop o.length, o.length⟩, o,
    ?_, ?_, ⟨hs, hd, ?_, hsmall⟩, hmem⟩
  · simp only [join, hloop, ok_bind, hsize, hot, hoa]
  · refine ⟨rfl, ⟨_, rfl, ?_⟩, ⟨_, rfl, ?_⟩⟩
    · rw [List.length_drop, hxt, List.length_append, List.length_map]
      omega
    · rw [List.length_drop, hxa, List.length_append, List.length_map]
      omega
  · intro e he
    obtain ⟨f, hf, g, hg, _, _, hage⟩ := (hmem e).mp he
    rw [hage]
    exact max_lt (hp.age_lt f hf) (hq.age_lt g hg)

end LruMaxAgeAbstractCache

end Llvmta
