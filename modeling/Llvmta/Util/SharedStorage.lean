import Llvmta.Library.CheckedVector
import Llvmta.Library.Interning

/-!
# Shared storage

Equal objects are stored once on the heap, so that their pointers can be compared instead of
them. All storages of one type are one: it is created with the first of them and deleted with
the last.
-/

namespace Llvmta

open Checked Interning

/-- A pointer is the number of its cell on the heap, which is empty once it is deleted. -/
structure SharedStorage (σ : Type) where
  heap : List (Option σ)
  storage : List ℕ
  refcount : ℕ
  deriving DecidableEq, Repr

namespace SharedStorage

variable {σ : Type} (less : σ → σ → Except Fault Bool)

/-- Nothing is stored before the first `SharedStorage()`. -/
def initial : SharedStorage σ := ⟨[], [], 0⟩

/-- `SharedStorage()` -/
def construct (s : SharedStorage σ) : SharedStorage σ :=
  { s with storage := if s.refcount = 0 then [] else s.storage, refcount := s.refcount + 1 }

/-- `SharedStorage(const SharedStorage &ss)` -/
def copy (s : SharedStorage σ) : SharedStorage σ := { s with refcount := s.refcount + 1 }

/-- `delete ptr` -/
def delete (heap : List (Option σ)) (ptr : ℕ) : List (Option σ) := heap.set ptr none

/-- `~SharedStorage()` -/
def destroy (s : SharedStorage σ) : SharedStorage σ :=
  if s.refcount - 1 = 0 then ⟨s.storage.foldl delete s.heap, [], s.refcount - 1⟩
  else { s with refcount := s.refcount - 1 }

/-- `*ptr` -/
def deref (s : SharedStorage σ) (ptr : ℕ) : Except Fault σ := do
  match ← read s.heap ptr with
  | some x => .ok x
  | none => .error .outOfBounds

/-- `DereferenceLess` -/
def dereferenceLess (s : SharedStorage σ) (p1 p2 : ℕ) : Except Fault Bool := do
  less (← s.deref p1) (← s.deref p2)

/-- The copy on the heap is deleted again if the object was contained. -/
def insert (s : SharedStorage σ) (x : σ) : Except Fault (SharedStorage σ × ℕ) := do
  let ptr := s.heap.length
  let allocated := { s with heap := s.heap ++ [some x] }
  let (storage, found) ← insertUnique (allocated.dereferenceLess less) ptr s.storage
  let heap := if found = ptr then allocated.heap else delete allocated.heap ptr
  .ok ({ s with heap, storage }, found)

/-- One insertion after the other, with the pointers that are returned. -/
def insertAll : List σ → SharedStorage σ → Except Fault (SharedStorage σ × List ℕ)
  | [], s => .ok (s, [])
  | x :: xs, s => do
    let (s, p) ← s.insert less x
    let (s, ps) ← insertAll xs s
    .ok (s, p :: ps)

variable {less} {same : σ → σ → Prop} {S : Set σ} {s s' s'' : SharedStorage σ} {p q : ℕ} {x y : σ}

theorem deref_eq_ok : s.deref p = .ok x ↔ s.heap[p]? = some (some x) := by
  unfold deref
  rw [bind_eq_ok]
  constructor
  · rintro ⟨cell, hcell, hx⟩
    cases cell with
    | none => cases hx
    | some y =>
      cases hx
      exact getElem?_of_read hcell
  · intro h
    refine ⟨some x, ?_, rfl⟩
    unfold Checked.read
    rw [h]

/-- Stored pointers point to values of `S`, in the order of these. -/
structure Valid (less : σ → σ → Except Fault Bool) (S : Set σ) (s : SharedStorage σ) : Prop where
  stored : ∀ p ∈ s.storage, ∃ x ∈ S, s.deref p = .ok x
  sorted : s.storage.Pairwise fun p q => s.dereferenceLess less p q = .ok true

theorem valid_initial : Valid less S (initial : SharedStorage σ) := ⟨by simp [initial], .nil⟩

/-- What is stored remains so. -/
def Extends (s s' : SharedStorage σ) : Prop :=
  ∀ p ∈ s.storage, p ∈ s'.storage ∧ s'.deref p = s.deref p

theorem extends_refl (s : SharedStorage σ) : Extends s s := fun _ hp => ⟨hp, rfl⟩

theorem Extends.trans (h : Extends s s') (h' : Extends s' s'') : Extends s s'' := by
  intro p hp
  obtain ⟨hp', hderef⟩ := h p hp
  obtain ⟨hp'', hderef'⟩ := h' p hp'
  exact ⟨hp'', hderef'.trans hderef⟩

/-- The stored pointer stands for the class of a value. -/
structure Points (same : σ → σ → Prop) (S : Set σ) (s : SharedStorage σ) (p : ℕ) (x : σ) :
    Prop where
  stored : p ∈ s.storage
  same : ∃ y ∈ S, s.deref p = .ok y ∧ same y x

theorem Points.of_extends (h : Points same S s p x) (hs : Extends s s') : Points same S s' p x := by
  obtain ⟨hp, y, hy, hderef, hsame⟩ := h
  obtain ⟨hp', hderef'⟩ := hs p hp
  exact ⟨hp', y, hy, hderef'.trans hderef, hsame⟩

/-- Stored pointers to values of one class are one. -/
theorem Valid.eq_of_same (hS : Discerns less same S) (hs : Valid less S s) (hp : p ∈ s.storage)
    (hq : q ∈ s.storage) (hx : s.deref p = .ok x) (hy : s.deref q = .ok y) (hxy : same x y) :
    p = q := by
  by_contra hne
  have hmem {p : ℕ} {x : σ} (hp : p ∈ s.storage) (hx : s.deref p = .ok x) : x ∈ S := by
    obtain ⟨x', hx', hderef⟩ := hs.stored p hp
    rw [hderef] at hx
    cases hx
    exact hx'
  have hsorted : s.storage.Pairwise fun p q =>
      s.dereferenceLess less p q = .ok true ∨ s.dereferenceLess less q p = .ok true :=
    hs.sorted.imp .inl
  have : Std.Symm fun p q =>
      s.dereferenceLess less p q = .ok true ∨ s.dereferenceLess less q p = .ok true :=
    ⟨fun _ _ => Or.symm⟩
  have hless := hsorted.forall hp hq hne
  simp only [dereferenceLess, hx, hy, ok_bind] at hless
  rcases hless with hless | hless
  · exact hS.not_same (hmem hp hx) (hmem hq hy) hless hxy
  · exact hS.not_same (hmem hq hy) (hmem hp hx) hless (hS.symm (hmem hp hx) (hmem hq hy) hxy)

/-- Pointers are equal if and only if the values are of one class. -/
theorem Points.eq_iff (hsame : Equivalence same) (hS : Discerns less same S) (hs : Valid less S s)
    (hp : Points same S s p x) (hq : Points same S s q y) : p = q ↔ same x y := by
  obtain ⟨hp, x', hx', hderef, hx⟩ := hp
  obtain ⟨hq, y', hy', hderef', hy⟩ := hq
  constructor
  · rintro rfl
    rw [hderef] at hderef'
    cases hderef'
    exact hsame.trans (hsame.symm hx) hy
  · intro hxy
    exact hs.eq_of_same hS hp hq hderef hderef' (hsame.trans hx (hsame.trans hxy (hsame.symm hy)))

theorem deref_delete_of_ne {heap : List (Option σ)} (hne : p ≠ q) :
    ({ s with heap := delete heap q } : SharedStorage σ).deref p =
      ({ s with heap } : SharedStorage σ).deref p := by
  unfold deref delete Checked.read
  rw [List.getElem?_set_ne (Ne.symm hne)]

theorem Valid.lt_length (hs : Valid less S s) (hp : p ∈ s.storage) : p < s.heap.length := by
  obtain ⟨y, _, hy⟩ := hs.stored p hp
  exact (List.getElem?_eq_some_iff.mp (deref_eq_ok.mp hy)).1

theorem insert_spec (hsame : Equivalence same) (hS : Discerns less same S) (hs : Valid less S s)
    (hx : x ∈ S) : ∃ s' p, s.insert less x = .ok (s', p) ∧ Valid less S s' ∧ Extends s s' ∧
      s'.refcount = s.refcount ∧ Points same S s' p x := by
  let allocated : SharedStorage σ := { s with heap := s.heap ++ [some x] }
  have hnew : allocated.deref s.heap.length = .ok x := by simp [deref_eq_ok, allocated]
  have hkept (p : ℕ) (hp : p ∈ s.storage) : allocated.deref p = s.deref p := by
    unfold deref Checked.read
    rw [List.getElem?_append_left (hs.lt_length hp)]
  let value (p : ℕ) : σ := ((allocated.heap[p]?).join).getD x
  have hvalue {p : ℕ} {y : σ} (hy : allocated.deref p = .ok y) : value p = y := by
    simp [value, deref_eq_ok.mp hy]
  have hless {p q : ℕ} {y z : σ} (hy : allocated.deref p = .ok y) (hz : allocated.deref q = .ok z) :
      allocated.dereferenceLess less p q = less (value p) (value q) := by
    rw [dereferenceLess, hy, hz, hvalue hy, hvalue hz, ok_bind, ok_bind]
  have hstored (p : ℕ) (hp : p ∈ s.storage) : ∃ y ∈ S, allocated.deref p = .ok y := by
    obtain ⟨y, hy, hderef⟩ := hs.stored p hp
    exact ⟨y, hy, (hkept p hp).trans hderef⟩
  have hsorted : s.storage.Pairwise fun p q => less (value p) (value q) = .ok true := by
    refine hs.sorted.imp_of_mem fun {p q} hp hq hpq => ?_
    obtain ⟨y, _, hy⟩ := hstored p hp
    obtain ⟨z, _, hz⟩ := hstored q hq
    rw [← hless hy hz, dereferenceLess, hkept p hp, hkept q hq]
    exact hpq
  obtain ⟨storage, found, hinsert, hsorted', hcases⟩ := insertUnique_spec hS
    value (allocated.dereferenceLess less) s.heap.length (by rwa [hvalue hnew])
    (fun p hp => by
      obtain ⟨y, hyS, hy⟩ := hstored p hp
      rwa [hvalue hy])
    (fun p hp => by
      obtain ⟨y, _, hy⟩ := hstored p hp
      exact hless hy hnew)
    (fun p hp => by
      obtain ⟨y, _, hy⟩ := hstored p hp
      exact hless hnew hy) hsorted
  rcases hcases with ⟨rfl, _, hmem⟩ | ⟨hfound, hfoundSame, rfl⟩
  · -- the new cell is stored
    have hall (p : ℕ) (hp : p ∈ storage) : ∃ y ∈ S, allocated.deref p = .ok y := by
      rcases (hmem p).mp hp with rfl | hp
      · exact ⟨x, hx, hnew⟩
      · exact hstored p hp
    refine ⟨{ allocated with storage }, s.heap.length, ?_, ⟨hall, ?_⟩, ?_, rfl, ?_⟩
    · change (do
        let (storage, found) ← insertUnique (allocated.dereferenceLess less) s.heap.length s.storage
        _) = _
      rw [hinsert]
      simp [allocated]
    · refine hsorted'.imp_of_mem fun {p q} hp hq hpq => ?_
      obtain ⟨y, _, hy⟩ := hall p hp
      obtain ⟨z, _, hz⟩ := hall q hq
      exact (hless hy hz).trans hpq
    · exact fun p hp => ⟨(hmem p).mpr (.inr hp), hkept p hp⟩
    · exact ⟨(hmem _).mpr (.inl rfl), x, hx, hnew, hsame.refl x⟩
  · -- it is deleted
    have hne {p : ℕ} (hp : p ∈ s.storage) : p ≠ s.heap.length := (hs.lt_length hp).ne
    have hdelete (p : ℕ) (hp : p ∈ s.storage) :
        ({ s with heap := delete allocated.heap s.heap.length } : SharedStorage σ).deref p =
          s.deref p :=
      (deref_delete_of_ne (hne hp)).trans (hkept p hp)
    refine ⟨{ s with heap := delete allocated.heap s.heap.length }, found, ?_, ⟨?_, ?_⟩, ?_, rfl,
      ?_⟩
    · change (do
        let (storage, found) ← insertUnique (allocated.dereferenceLess less) s.heap.length s.storage
        _) = _
      rw [hinsert]
      simp [hne hfound, allocated]
    · intro p hp
      obtain ⟨y, hy, hderef⟩ := hs.stored p hp
      exact ⟨y, hy, (hdelete p hp).trans hderef⟩
    · refine hs.sorted.imp_of_mem fun {p q} hp hq hpq => ?_
      rw [dereferenceLess, hdelete p hp, hdelete q hq]
      exact hpq
    · exact fun p hp => ⟨hp, hdelete p hp⟩
    · obtain ⟨y, hyS, hy⟩ := hs.stored found hfound
      rw [hvalue ((hkept found hfound).trans hy), hvalue hnew] at hfoundSame
      exact ⟨hfound, y, hyS, (hdelete found hfound).trans hy, hfoundSame⟩

/-- Whatever is inserted one after the other, each pointer that is returned points to an equal
object, and pointers are equal if and only if the objects inserted are. -/
theorem insertAll_unique (hsame : Equivalence same) (hS : Discerns less same S) (xs : List σ)
    (hxs : ∀ x ∈ xs, x ∈ S) : ∃ s ps, insertAll less xs initial.construct = .ok (s, ps) ∧
      List.Forall₂ (Points same S s) ps xs ∧
      ∀ (i j p q : ℕ) (x y : σ), ps[i]? = some p → ps[j]? = some q → xs[i]? = some x →
        xs[j]? = some y → (p = q ↔ same x y) := by
  have hrun (xs : List σ) (hxs : ∀ x ∈ xs, x ∈ S) (s : SharedStorage σ) (hs : Valid less S s) :
      ∃ s' ps, insertAll less xs s = .ok (s', ps) ∧ Valid less S s' ∧ Extends s s' ∧
        List.Forall₂ (Points same S s') ps xs := by
    induction xs generalizing s with
    | nil => exact ⟨s, [], rfl, hs, extends_refl s, .nil⟩
    | cons x xs ih =>
      obtain ⟨hx, hxs⟩ := List.forall_mem_cons.mp hxs
      obtain ⟨s₁, p, hp, hs₁, hext, _, hpoints⟩ := insert_spec hsame hS hs hx
      obtain ⟨s', ps, hps, hs', hext', hall⟩ := ih hxs s₁ hs₁
      refine ⟨s', p :: ps, ?_, hs', hext.trans hext', .cons (hpoints.of_extends hext') hall⟩
      rw [insertAll, hp, ok_bind]
      dsimp only
      rw [hps]
      rfl
  obtain ⟨s, ps, hps, hs, _, hall⟩ := hrun xs hxs initial.construct
    ⟨by simp [construct, initial], .nil⟩
  refine ⟨s, ps, hps, hall, fun i j p q x y hp hq hx hy => ?_⟩
  have hpoints {i p : ℕ} {x : σ} (hp : ps[i]? = some p) (hx : xs[i]? = some x) :
      Points same S s p x := by
    obtain ⟨hi, rfl⟩ := List.getElem?_eq_some_iff.mp hp
    obtain ⟨hi', rfl⟩ := List.getElem?_eq_some_iff.mp hx
    exact (List.forall₂_iff_get.mp hall).2 i hi hi'
  exact (hpoints hp hx).eq_iff hsame hS hs (hpoints hq hy)

/-- Of three numbers, the first and the last one are stored once. -/
theorem insertAll_unique_numbers :
    let less (a b : ℕ) : Except Fault Bool := .ok (decide (a < b))
    ∃ s ps, insertAll less [7, 3, 7] initial.construct = .ok (s, ps) ∧
      List.Forall₂ (Points Eq Set.univ s) ps [7, 3, 7] ∧ (ps[0]? = some 0 → ps[2]? = some 0) := by
  intro less
  have hless : Discerns less Eq Set.univ :=
    discerns_of_key id (fun _ _ _ _ => rfl) fun _ _ _ _ => Iff.rfl
  obtain ⟨s, ps, hps, hall, hunique⟩ := insertAll_unique eq_equivalence hless [7, 3, 7] (by simp)
  refine ⟨s, ps, hps, hall, fun h0 => ?_⟩
  obtain ⟨p, hp⟩ : ∃ p, ps[2]? = some p := by
    have hlength := hall.length_eq
    exact ⟨_, List.getElem?_eq_getElem (by simp [hlength])⟩
  have heq : 0 = p := (hunique 0 2 0 p 7 7 h0 hp rfl rfl).mpr rfl
  rw [hp, heq]

end SharedStorage

end Llvmta
