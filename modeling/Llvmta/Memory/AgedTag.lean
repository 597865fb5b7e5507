import Llvmta.Memory.CacheTraits
import Mathlib.Data.List.Pairwise
import Mathlib.Data.List.Nodup

/-!
# Tags with age bounds

The must and the may analysis of a cache set both keep a list of tags with an
age bound, sorted by age and, for equal ages, by tag. This module holds the
order, the facts about sorted lists and the insertion into a run of equal ages
that both updates perform in place.
-/

namespace Llvmta

structure AgedTag where
  tag : ℕ
  age : ℕ
  deriving DecidableEq, Repr

namespace AgedTag

/-- First by age, then by tag. -/
def Before (e f : AgedTag) : Prop := e.age < f.age ∨ (e.age = f.age ∧ e.tag < f.tag)

instance (e f : AgedTag) : Decidable (Before e f) := inferInstanceAs (Decidable (_ ∨ _))

theorem Before.trans {e f g : AgedTag} (h₁ : e.Before f) (h₂ : f.Before g) : e.Before g := by
  unfold Before at *
  omega

theorem Before.irrefl (e : AgedTag) : ¬ e.Before e := by
  unfold Before
  omega

theorem Before.age_le {e f : AgedTag} (h : e.Before f) : e.age ≤ f.age := by
  unfold Before at h
  omega

theorem eq_or_before (e f : AgedTag) : e = f ∨ e.Before f ∨ f.Before e := by
  obtain ⟨t, a⟩ := e
  obtain ⟨u, b⟩ := f
  by_cases h : a = b ∧ t = u
  · exact .inl (by rw [h.1, h.2])
  · refine .inr ?_
    simp only [Before]
    omega

def Sorted (l : List AgedTag) : Prop := l.Pairwise Before

/-- No tag occurs twice. -/
def Distinct (l : List AgedTag) : Prop := (l.map tag).Nodup

theorem Sorted.nil : Sorted [] := List.Pairwise.nil

theorem Distinct.nil : Distinct [] := List.nodup_nil

theorem distinct_cons {e : AgedTag} {l : List AgedTag} :
    Distinct (e :: l) ↔ (∀ f ∈ l, f.tag ≠ e.tag) ∧ Distinct l := by
  simp only [Distinct, List.map_cons, List.nodup_cons, List.mem_map, not_exists, not_and]

theorem Distinct.perm {l l' : List AgedTag} (h : Distinct l) (hp : l.Perm l') : Distinct l' :=
  (hp.map tag).nodup_iff.mp h

theorem Distinct.sublist {l l' : List AgedTag} (h : Distinct l) (hs : l'.Sublist l) :
    Distinct l' :=
  List.Nodup.sublist (hs.map tag) h

theorem Distinct.eq_of_tag {l : List AgedTag} (h : Distinct l) {e f : AgedTag} (he : e ∈ l)
    (hf : f ∈ l) (htag : e.tag = f.tag) : e = f :=
  List.inj_on_of_nodup_map h he hf htag

/-- The entry for a tag is the one that a search by tag finds. -/
theorem Distinct.find?_tag {l : List AgedTag} (h : Distinct l) {e : AgedTag} (he : e ∈ l) :
    l.find? (fun f => f.tag = e.tag) = some e := by
  cases hf : l.find? (fun f => f.tag = e.tag) with
  | none =>
    have hne := List.find?_eq_none.mp hf e he
    simp at hne
  | some f =>
    have htag : f.tag = e.tag := by simpa using List.find?_some hf
    rw [h.eq_of_tag (List.mem_of_find?_eq_some hf) he htag]

theorem find?_tag_none {l : List AgedTag} {t : ℕ} (h : ∀ e ∈ l, e.tag ≠ t) :
    l.find? (fun f => f.tag = t) = none := by
  simpa using h

/-- In a sorted list only the elements after a split point can be as old as it. -/
theorem Sorted.append {l r : List AgedTag} (h : Sorted (l ++ r)) :
    Sorted l ∧ Sorted r ∧ ∀ e ∈ l, ∀ f ∈ r, e.Before f :=
  List.pairwise_append.mp h

theorem sorted_append {l r : List AgedTag} :
    Sorted (l ++ r) ↔ Sorted l ∧ Sorted r ∧ ∀ e ∈ l, ∀ f ∈ r, e.Before f :=
  List.pairwise_append

theorem sorted_cons {e : AgedTag} {l : List AgedTag} :
    Sorted (e :: l) ↔ (∀ f ∈ l, e.Before f) ∧ Sorted l :=
  List.pairwise_cons

theorem Sorted.nodup {l : List AgedTag} (h : Sorted l) : l.Nodup := by
  apply h.imp
  rintro e _ hb rfl
  exact Before.irrefl e hb

/-- A sorted list is determined by its elements. -/
theorem Sorted.ext {l l' : List AgedTag} (h : Sorted l) (h' : Sorted l')
    (hmem : ∀ e, e ∈ l ↔ e ∈ l') : l = l' := by
  apply List.Perm.eq_of_pairwise _ h h' ((List.perm_ext_iff_of_nodup h.nodup h'.nodup).mpr hmem)
  intro e f _ _ hef hfe
  exact absurd (hef.trans hfe) (Before.irrefl e)

/-- A sorted list is cut in two by a bound on the age. -/
theorem Sorted.split {l : List AgedTag} (h : Sorted l) (n : ℕ) :
    (l.filter fun e => e.age < n) ++ (l.filter fun e => n ≤ e.age) = l := by
  induction l with
  | nil => rfl
  | cons e l ih =>
    obtain ⟨hel, hl⟩ := sorted_cons.mp h
    have ih := ih hl
    by_cases he : e.age < n
    · rw [List.filter_cons_of_pos (by simpa using he), List.filter_cons_of_neg (by simpa using he),
        List.cons_append, ih]
    · have hall : ∀ f ∈ l, n ≤ f.age := fun f hf => by
        have := (hel f hf).age_le
        omega
      have hnone : l.filter (fun e => e.age < n) = [] :=
        List.filter_eq_nil_iff.mpr fun f hf => by simpa using hall f hf
      rw [hnone, List.nil_append] at ih
      rw [List.filter_cons_of_neg (by simpa using he), List.filter_cons_of_pos (by simpa using he),
        hnone, List.nil_append, ih]

/-- Put `e` in front of the first element that is older or has no smaller tag. -/
def insertMerged (e : AgedTag) : List AgedTag → List AgedTag
  | [] => [e]
  | f :: r => if f.age ≤ e.age ∧ f.tag < e.tag then f :: insertMerged e r else e :: f :: r

theorem insertMerged_perm (e : AgedTag) (l : List AgedTag) : (insertMerged e l).Perm (e :: l) := by
  induction l with
  | nil => exact List.Perm.refl _
  | cons f r ih =>
    unfold insertMerged
    split_ifs with h
    · exact (ih.cons f).trans (List.Perm.swap e f r)
    · exact List.Perm.refl _

@[simp] theorem mem_insertMerged {e g : AgedTag} {l : List AgedTag} :
    g ∈ insertMerged e l ↔ g = e ∨ g ∈ l := by
  rw [(insertMerged_perm e l).mem_iff, List.mem_cons]

/-- Inserting keeps a list sorted when nothing in it is younger than `e`. -/
theorem Sorted.insertMerged {e : AgedTag} {l : List AgedTag} (h : Sorted l)
    (hage : ∀ f ∈ l, e.age ≤ f.age) (htag : ∀ f ∈ l, f.tag ≠ e.tag) :
    Sorted (insertMerged e l) := by
  induction l with
  | nil => exact List.pairwise_singleton _ _
  | cons f r ih =>
    have hf := hage f List.mem_cons_self
    have ht := htag f List.mem_cons_self
    obtain ⟨hfr, hr⟩ := sorted_cons.mp h
    have ih := ih hr (fun g hg => hage g (List.mem_cons_of_mem f hg))
      (fun g hg => htag g (List.mem_cons_of_mem f hg))
    unfold AgedTag.insertMerged
    split_ifs with hc
    · refine sorted_cons.mpr ⟨?_, ih⟩
      intro g hg
      rcases mem_insertMerged.mp hg with rfl | hg
      · exact .inr ⟨le_antisymm hc.1 hf, hc.2⟩
      · exact hfr g hg
    · have hef : e.Before f := by
        unfold Before
        omega
      refine sorted_cons.mpr ⟨?_, h⟩
      intro g hg
      rcases List.mem_cons.mp hg with rfl | hg
      · exact hef
      · exact hef.trans (hfr g hg)

/-- The ages of a list with `e` merged in are the ages of the list behind `e`'s. -/
theorem map_age_insertMerged {e : AgedTag} {l : List AgedTag} (hage : ∀ f ∈ l, e.age ≤ f.age) :
    (insertMerged e l).map age = e.age :: l.map age := by
  induction l with
  | nil => rfl
  | cons f r ih =>
    have hf := hage f List.mem_cons_self
    have ih := ih fun g hg => hage g (List.mem_cons_of_mem f hg)
    unfold insertMerged
    split_ifs with hc
    · have he : f.age = e.age := le_antisymm hc.1 hf
      rw [List.map_cons, ih, List.map_cons, he]
    · rfl

theorem insertMerged_of_before {e : AgedTag} {l : List AgedTag} (h : ∀ f ∈ l, e.Before f) :
    insertMerged e l = e :: l := by
  cases l with
  | nil => rfl
  | cons f r =>
    have hf := h f List.mem_cons_self
    unfold insertMerged Before at *
    rw [if_neg]
    omega

/-- Merge a list of elements into a sorted rest, from its last element on. -/
def mergeAll (l r : List AgedTag) : List AgedTag := l.foldr insertMerged r

theorem mergeAll_perm (l r : List AgedTag) : (mergeAll l r).Perm (l ++ r) := by
  induction l with
  | nil => exact List.Perm.refl _
  | cons e l ih => exact (insertMerged_perm e _).trans (ih.cons e)

@[simp] theorem mem_mergeAll {l r : List AgedTag} {g : AgedTag} :
    g ∈ mergeAll l r ↔ g ∈ l ∨ g ∈ r := by
  rw [(mergeAll_perm l r).mem_iff, List.mem_append]

/-- Merging keeps the order when the ages of the merged elements ascend and stay
below the rest. -/
theorem sorted_mergeAll {l r : List AgedTag} (hl : l.Pairwise fun e f => e.age ≤ f.age)
    (hr : Sorted r) (hlr : ∀ e ∈ l, ∀ f ∈ r, e.age ≤ f.age) (hd : Distinct (l ++ r)) :
    Sorted (mergeAll l r) := by
  induction l with
  | nil => exact hr
  | cons e l ih =>
    obtain ⟨hel, hl⟩ := List.pairwise_cons.mp hl
    obtain ⟨hne, hd⟩ := distinct_cons.mp hd
    have hs := ih hl (fun f hf => hlr f (List.mem_cons_of_mem e hf)) hd
    refine hs.insertMerged ?_ ?_
    · intro f hf
      rcases mem_mergeAll.mp hf with hf | hf
      · exact hel f hf
      · exact hlr e List.mem_cons_self f hf
    · intro f hf
      exact hne f (List.mem_append.mpr (mem_mergeAll.mp hf))

/-- Merging ages the way concatenation does. -/
theorem map_age_mergeAll {l r : List AgedTag} (hl : l.Pairwise fun e f => e.age ≤ f.age)
    (hlr : ∀ e ∈ l, ∀ f ∈ r, e.age ≤ f.age) :
    (mergeAll l r).map age = l.map age ++ r.map age := by
  induction l with
  | nil => rfl
  | cons e l ih =>
    obtain ⟨hel, hl⟩ := List.pairwise_cons.mp hl
    have ih := ih hl fun f hf => hlr f (List.mem_cons_of_mem e hf)
    change (insertMerged e (mergeAll l r)).map age = _
    rw [map_age_insertMerged, ih]
    · rfl
    · intro f hf
      rcases mem_mergeAll.mp hf with hf | hf
      · exact hel f hf
      · exact hlr e List.mem_cons_self f hf

/-- Ageing by an access to an element of age `accessedAge`. -/
def bump (accessedAge : ℕ) (e : AgedTag) : AgedTag :=
  ⟨e.tag, e.age + if e.age < accessedAge then 1 else 0⟩

@[simp] theorem bump_tag (a : ℕ) (e : AgedTag) : (bump a e).tag = e.tag := rfl

theorem bump_age_le {a : ℕ} {e : AgedTag} (h : e.age ≤ a) : (bump a e).age ≤ a := by
  unfold bump
  dsimp only
  split_ifs <;> omega

theorem bump_age_mono (a : ℕ) {e f : AgedTag} (h : e.age ≤ f.age) :
    (bump a e).age ≤ (bump a f).age := by
  unfold bump
  dsimp only
  split_ifs <;> omega

/-- Ageing keeps the order, except among the elements that reach the accessed age. -/
theorem bump_before {a : ℕ} {e f : AgedTag} (h : e.Before f) (hf : f.age ≤ a) :
    (bump a e).age = a ∨ (bump a e).Before (bump a f) := by
  unfold bump Before at *
  dsimp only
  split_ifs <;> omega

/-- Ageing every element keeps the order. -/
theorem Sorted.map_bump {a : ℕ} {l : List AgedTag} (h : Sorted l) (ha : ∀ e ∈ l, e.age < a) :
    Sorted (l.map (bump a)) := by
  apply List.pairwise_map.mpr
  apply h.imp_of_mem
  intro e f he hf hef
  have := ha e he
  have := ha f hf
  unfold bump Before at *
  dsimp only
  split_ifs
  omega

theorem map_tag_map_bump (a : ℕ) (l : List AgedTag) : (l.map (bump a)).map tag = l.map tag := by
  rw [List.map_map]
  rfl

theorem Distinct.map_bump {l : List AgedTag} (h : Distinct l) (a : ℕ) :
    Distinct (l.map (bump a)) := by
  unfold Distinct
  rwa [map_tag_map_bump]

end AgedTag

end Llvmta
