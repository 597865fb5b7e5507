import Mathlib.Data.List.Sort
import Mathlib.Tactic

/-!
# Interning in the order of a comparison

An interned value is looked up in a sequence of pointers that is kept in the order of what
they point to. The comparison may stop. On the values on which it does not, and orders them
up to an equivalence, a pointer stands for one class of values.
-/

namespace Interning

variable {α ε : Type*} {π : Type}

/-- On the values of `S` the comparison returns and orders the classes of `same`. -/
structure Discerns (less : α → α → Except ε Bool) (same : α → α → Prop) (S : Set α) : Prop where
  returns : ∀ x ∈ S, ∀ y ∈ S, ∃ b, less x y = .ok b
  trans : ∀ x ∈ S, ∀ y ∈ S, ∀ z ∈ S, less x y = .ok true → less y z = .ok true →
    less x z = .ok true
  same_iff : ∀ x ∈ S, ∀ y ∈ S, less x y = .ok false ∧ less y x = .ok false ↔ same x y

/-- A comparison by keys of a linear order tells apart what has different keys. -/
theorem discerns_of_key {β : Type*} [LinearOrder β] {less : α → α → Except ε Bool}
    {same : α → α → Prop} {S : Set α} (key : α → β)
    (hless : ∀ x ∈ S, ∀ y ∈ S, less x y = .ok (decide (key x < key y)))
    (hsame : ∀ x ∈ S, ∀ y ∈ S, key x = key y ↔ same x y) : Discerns less same S where
  returns x hx y hy := ⟨_, hless x hx y hy⟩
  trans x hx y hy z hz hxy hyz := by
    rw [hless x hx y hy] at hxy
    rw [hless y hy z hz] at hyz
    rw [hless x hx z hz, decide_eq_true]
    exact (of_decide_eq_true (Except.ok.inj hxy)).trans (of_decide_eq_true (Except.ok.inj hyz))
  same_iff x hx y hy := by
    rw [hless x hx y hy, hless y hy x hx, ← hsame x hx y hy]
    simp only [Except.ok.injEq, decide_eq_false_iff_not, not_lt]
    exact ⟨fun h => le_antisymm h.2 h.1, fun h => ⟨h.ge, h.le⟩⟩

namespace Discerns

variable {less : α → α → Except ε Bool} {same : α → α → Prop} {S : Set α} {x y : α}

theorem mono {S' : Set α} (h : Discerns less same S) (hS : S' ⊆ S) : Discerns less same S' where
  returns x hx y hy := h.returns x (hS hx) y (hS hy)
  trans x hx y hy z hz := h.trans x (hS hx) y (hS hy) z (hS hz)
  same_iff x hx y hy := h.same_iff x (hS hx) y (hS hy)

theorem symm (h : Discerns less same S) (hx : x ∈ S) (hy : y ∈ S) (hxy : same x y) :
    same y x :=
  (h.same_iff y hy x hx).mp ((h.same_iff x hx y hy).mpr hxy).symm

theorem not_same (h : Discerns less same S) (hx : x ∈ S) (hy : y ∈ S)
    (hxy : less x y = .ok true) : ¬same x y := by
  intro hsame
  have hfalse := ((h.same_iff x hx y hy).mpr hsame).1
  rw [hxy] at hfalse
  cases hfalse

theorem irrefl (h : Discerns less same S) (hx : x ∈ S) (hrefl : same x x) :
    less x x = .ok false :=
  ((h.same_iff x hx x hx).mpr hrefl).1

end Discerns

/-- Looks for the first pointer that is not less than the new one, which is returned if it is
not greater either. Else the new pointer goes before it. -/
def insertUnique (less : π → π → Except ε Bool) (ptr : π) : List π → Except ε (List π × π)
  | [] => .ok ([ptr], ptr)
  | p :: ps => do
    if ← less p ptr then
      let (ps, found) ← insertUnique less ptr ps
      .ok (p :: ps, found)
    else if ← less ptr p then .ok (ptr :: p :: ps, ptr)
    else .ok (p :: ps, p)

/-- Either no pointer stands for the value and the new one is inserted, or one does and is
returned. -/
theorem insertUnique_spec {less : α → α → Except ε Bool} {same : α → α → Prop} {S : Set α}
    (h : Discerns less same S) (value : π → α) (lessPtr : π → π → Except ε Bool) (ptr : π)
    {ps : List π} (hptr : value ptr ∈ S) (hps : ∀ p ∈ ps, value p ∈ S)
    (hlt : ∀ p ∈ ps, lessPtr p ptr = less (value p) (value ptr))
    (hgt : ∀ p ∈ ps, lessPtr ptr p = less (value ptr) (value p))
    (hsorted : ps.Pairwise fun p q => less (value p) (value q) = .ok true) :
    ∃ ps' found, insertUnique lessPtr ptr ps = .ok (ps', found) ∧
      ps'.Pairwise (fun p q => less (value p) (value q) = .ok true) ∧
      (found = ptr ∧ (∀ p ∈ ps, ¬same (value p) (value ptr)) ∧ (∀ p, p ∈ ps' ↔ p = ptr ∨ p ∈ ps) ∨
        found ∈ ps ∧ same (value found) (value ptr) ∧ ps' = ps) := by
  induction ps with
  | nil => exact ⟨[ptr], ptr, rfl, List.pairwise_singleton _ _, .inl ⟨rfl, by simp, by simp⟩⟩
  | cons p ps ih =>
    obtain ⟨hp, hrest⟩ := List.forall_mem_cons.mp hps
    obtain ⟨hltp, hlt⟩ := List.forall_mem_cons.mp hlt
    obtain ⟨hgtp, hgt⟩ := List.forall_mem_cons.mp hgt
    obtain ⟨hfirst, hsorted⟩ := List.pairwise_cons.mp hsorted
    obtain ⟨ps', found, hinsert, hsorted', hcases⟩ := ih hrest hlt hgt hsorted
    obtain ⟨b, hb⟩ := h.returns (value p) hp (value ptr) hptr
    rw [insertUnique, hltp, hb]
    cases b with
    | true =>
      have hmem' : ∀ q ∈ ps', q = ptr ∨ q ∈ ps := by
        intro q hq
        rcases hcases with ⟨_, _, hmem⟩ | ⟨_, _, rfl⟩
        · exact (hmem q).mp hq
        · exact .inr hq
      refine ⟨p :: ps', found, ?_, List.pairwise_cons.mpr ⟨fun q hq => ?_, hsorted'⟩, ?_⟩
      · change (do
          let (ps, found) ← insertUnique lessPtr ptr ps
          .ok (p :: ps, found)) = _
        rw [hinsert]
        rfl
      · rcases hmem' q hq with rfl | hq
        · exact hb
        · exact hfirst q hq
      · rcases hcases with ⟨rfl, hnone, hmem⟩ | ⟨hfound, hsame, rfl⟩
        · refine .inl ⟨rfl, List.forall_mem_cons.mpr ⟨h.not_same hp hptr hb, hnone⟩, fun q => ?_⟩
          rw [List.mem_cons, hmem, List.mem_cons]
          tauto
        · exact .inr ⟨List.mem_cons_of_mem p hfound, hsame, rfl⟩
    | false =>
      obtain ⟨c, hc⟩ := h.returns (value ptr) hptr (value p) hp
      change ∃ ps' found, (do
        if ← lessPtr ptr p then Except.ok (ptr :: p :: ps, ptr)
        else Except.ok (p :: ps, p)) = Except.ok (ps', found) ∧ _
      rw [hgtp, hc]
      cases c with
      | true =>
        have hbefore : ∀ q ∈ p :: ps, less (value ptr) (value q) = .ok true := by
          intro q hq
          rcases List.mem_cons.mp hq with rfl | hq
          · exact hc
          · exact h.trans _ hptr _ hp _ (hrest q hq) hc (hfirst q hq)
        refine ⟨ptr :: p :: ps, ptr, rfl, List.pairwise_cons.mpr ⟨hbefore,
          List.pairwise_cons.mpr ⟨hfirst, hsorted⟩⟩, .inl ⟨rfl, fun q hq hsame => ?_, by simp⟩⟩
        exact h.not_same hptr (hps q hq) (hbefore q hq) (h.symm (hps q hq) hptr hsame)
      | false =>
        refine ⟨p :: ps, p, rfl, List.pairwise_cons.mpr ⟨hfirst, hsorted⟩,
          .inr ⟨List.mem_cons_self, ?_, rfl⟩⟩
        exact (h.same_iff _ hp _ hptr).mp ⟨hb, hc⟩

end Interning
