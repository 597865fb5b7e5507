import Llvmta.Memory.SharedCacheSets

/-!
# Shared sets stand for sets of their own

An analysis that does not tell apart what its comparison does not gives the same answers
whether its sets are shared or not. Each pointer stands for the class of a set; operations
insert what they make of a set, and what has been stored before stays where it is.
-/

namespace Llvmta

open Checked Interning

variable {T : CacheTraits} {σ : Type} {C : CacheSetAnalysis σ}
  {less : σ → σ → Except Fault Bool} {same : σ → σ → Prop} {S : Set σ}

/-- Both results are of `S` and of one class, with the same report. -/
def SameResult {ρ : Type} (same : σ → σ → Prop) (S : Set σ) (r r' : σ × ρ) : Prop :=
  r.1 ∈ S ∧ r'.1 ∈ S ∧ same r.1 r'.1 ∧ r.2 = r'.2

/-- An analysis on the states `S` that does not tell the states of a class apart. -/
structure CacheSetAnalysis.Respects (C : CacheSetAnalysis σ) (same : σ → σ → Prop) (S : Set σ) :
    Prop where
  new : ∀ assumeAnEmptyCache, C.new assumeAnEmptyCache ∈ S
  classify : ∀ x ∈ S, ∀ y ∈ S, same x y → ∀ addr, C.classify x addr = C.classify y addr
  update : ∀ x ∈ S, ∀ y ∈ S, same x y → ∀ addr load_store wantReport assumption,
    Agree (SameResult same S) (C.update x addr load_store wantReport assumption)
      (C.update y addr load_store wantReport assumption)
  potentialUpdate : ∀ x ∈ S, ∀ y ∈ S, same x y → ∀ addr load_store wantReport,
    Agree (SameResult same S) (C.potentialUpdate x addr load_store wantReport)
      (C.potentialUpdate y addr load_store wantReport)
  join : ∀ x ∈ S, ∀ x' ∈ S, ∀ y ∈ S, ∀ y' ∈ S, same x x' → same y y' →
    Agree (fun u u' => u ∈ S ∧ u' ∈ S ∧ same u u') (C.join x y) (C.join x' y')
  equals_iff : ∀ x ∈ S, ∀ y ∈ S, C.equals x y = true ↔ same x y

namespace SharedCacheSets

open SharedStorage

variable {s s' s'' : SharedStorage σ} {c d : AbstractCacheImpl ℕ} {v w : AbstractCacheImpl σ}

/-- Storages that operations on the caches lead to. -/
structure Next (less : σ → σ → Except Fault Bool) (S : Set σ) (s s' : SharedStorage σ) : Prop where
  valid : Valid less S s'
  kept : Extends s s'
  refcount_eq : s'.refcount = s.refcount

theorem next_refl (hs : Valid less S s) : Next less S s s := ⟨hs, extends_refl s, rfl⟩

theorem Next.trans (h : Next less S s s') (h' : Next less S s' s'') : Next less S s s'' :=
  ⟨h'.valid, h.kept.trans h'.kept, h'.refcount_eq.trans h.refcount_eq⟩

/-- The pointer stands for the class of a set in `S`. -/
def Stands (same : σ → σ → Prop) (S : Set σ) (s : SharedStorage σ) (p : ℕ) (x : σ) : Prop :=
  x ∈ S ∧ Points same S s p x

theorem Stands.of_extends {p : ℕ} {x : σ} (h : Stands same S s p x) (hs : Extends s s') :
    Stands same S s' p x :=
  ⟨h.1, h.2.of_extends hs⟩

/-- The cache of pointers stands for the cache of sets. -/
def StandsFor (same : σ → σ → Prop) (S : Set σ) (s : SharedStorage σ) (c : AbstractCacheImpl ℕ)
    (v : AbstractCacheImpl σ) : Prop :=
  List.Forall₂ (Stands same S s) c.cacheSets v.cacheSets

theorem StandsFor.of_extends (h : StandsFor same S s c v) (hs : Extends s s') :
    StandsFor same S s' c v :=
  h.imp fun _ _ hp => hp.of_extends hs

/-- What an operation on a cache gives. -/
def Changed {ρ : Type} (less : σ → σ → Except Fault Bool) (same : σ → σ → Prop) (S : Set σ)
    (s : SharedStorage σ) (r : SharedStorage σ × AbstractCacheImpl ℕ × ρ)
    (r' : AbstractCacheImpl σ × ρ) : Prop :=
  Next less S s r.1 ∧ StandsFor same S r.1 r.2.1 r'.1 ∧ r.2.2 = r'.2

theorem Stands.deref {p : ℕ} {x : σ} (h : Stands same S s p x) :
    ∃ y ∈ S, s.deref p = .ok y ∧ same y x :=
  h.2.same

/-- An operation on a set of its own. -/
def changeSet {ρ : Type} (v : AbstractCacheImpl σ) (index : ℕ)
    (operation : σ → Except Fault (σ × ρ)) : Except Fault (AbstractCacheImpl σ × ρ) := do
  let set ← read v.cacheSets index
  let (set, report) ← operation set
  let cacheSets ← write v.cacheSets index set
  .ok (⟨cacheSets⟩, report)

theorem updateUnknownSets_succ (addr : AbstractAddress) (load_store : AccessType)
    (wantReport : Bool) (n index : ℕ) (v : AbstractCacheImpl σ) (report : Option UpdateReport) :
    AbstractCacheImpl.updateUnknownSets C addr load_store wantReport (n + 1) index v report = (do
      let (v, rep) ← changeSet v index fun set => C.potentialUpdate set addr load_store wantReport
      let report := if wantReport then
          match report with
          | none => UpdateReport.asJoinable rep
          | some r => some (r.join (UpdateReport.asJoinable rep))
        else report
      AbstractCacheImpl.updateUnknownSets C addr load_store wantReport n (index + 1) v report) := by
  simp only [AbstractCacheImpl.updateUnknownSets, changeSet, bind_assoc]
  rfl

theorem updatePrecise_eq (v : AbstractCacheImpl σ) (addr : AbstractAddress)
    (load_store : AccessType) (wantReport : Bool) (assumption : Classification) :
    AbstractCacheImpl.updatePrecise T C v addr load_store wantReport assumption = (do
      let index := (AbstractCacheImpl.getTagAndIndex T addr.interval.lower).2
      let (v, report) ← changeSet v index fun set =>
        C.update set (lineAddress T addr.interval.lower) load_store wantReport assumption
      assertThat (report.isSome || !wantReport) "report || !wantReport"
      .ok (v, report)) := by
  simp only [AbstractCacheImpl.updatePrecise, changeSet, bind_assoc]
  rfl

section Operations

variable (hsame : Equivalence same) (hS : Discerns less same S) (hC : C.Respects same S)

include hsame hS in
theorem insert_agree (hs : Valid less S s) {x y : σ} (hx : x ∈ S) (hy : y ∈ S)
    (hxy : same x y) : ∃ s' p, s.insert less x = .ok (s', p) ∧ Next less S s s' ∧
      Stands same S s' p y := by
  obtain ⟨s', p, hinsert, hs', hext, hrefcount, hp, z, hz, hderef, hzx⟩ :=
    insert_spec hsame hS hs hx
  exact ⟨s', p, hinsert, ⟨hs', hext, hrefcount⟩, hy, hp, z, hz, hderef, hsame.trans hzx hxy⟩

include hsame hS in
theorem change_agree {ρ : Type} (hs : Valid less S s) (h : StandsFor same S s c v) (index : ℕ)
    {operation : σ → Except Fault (σ × ρ)}
    (hop : ∀ x ∈ S, ∀ y ∈ S, same x y → Agree (SameResult same S) (operation x) (operation y)) :
    Agree (Changed less same S s) (change less s c index operation)
      (changeSet v index operation) := by
  refine (agree_read h index).bind ?_
  rintro p x ⟨hpx, _⟩
  obtain ⟨y, hy, hderef, hyx⟩ := hpx.deref
  rw [hderef, ok_bind]
  refine (hop y hy x hpx.1 hyx).bind fun r r' hr => ?_
  obtain ⟨hr, hr', hsets, hreports⟩ := hr
  obtain ⟨s', q, hinsert, hnext, hq⟩ := insert_agree hsame hS hs hr hr' hsets
  dsimp only
  rw [hinsert, ok_bind]
  refine (agree_write (h.of_extends hnext.kept) hq index).bind fun sets sets' hsets => ?_
  exact .ok ⟨hnext, hsets.1, hreports⟩

include hC in
theorem classifyLoop_agree (h : StandsFor same S s c v) (upAligned fuel lowAligned : ℕ)
    (result : Classification) :
    Agree Eq (classifyLoop T C s c upAligned fuel lowAligned result)
      (AbstractCacheImpl.classifyLoop T C v upAligned fuel lowAligned result) := by
  induction fuel generalizing lowAligned result with
  | zero => exact .error _
  | succ fuel ih =>
    unfold classifyLoop AbstractCacheImpl.classifyLoop
    split_ifs
    · refine (agree_read h _).bind ?_
      rintro p x ⟨hpx, _⟩
      obtain ⟨y, hy, hderef, hyx⟩ := hpx.deref
      rw [hderef, ok_bind, hC.classify y hy x hpx.1 hyx]
      exact .bind_same fun cl _ => ih _ _
    · exact .ok rfl

include hC in
theorem classify_agree (h : StandsFor same S s c v) (addr : AbstractAddress) :
    Agree Eq (classify T C s c addr) (AbstractCacheImpl.classify T C v addr) := by
  unfold classify AbstractCacheImpl.classify
  split_ifs
  · exact .ok rfl
  · exact classifyLoop_agree hC h _ _ _ _

include hsame hS hC in
theorem updateUnknownSets_agree (addr : AbstractAddress) (load_store : AccessType)
    (wantReport : Bool) (n index : ℕ) (hs : Valid less S s) (h : StandsFor same S s c v)
    (report : Option UpdateReport) :
    Agree (Changed less same S s)
      (updateUnknownSets C less addr load_store wantReport n index s c report)
      (AbstractCacheImpl.updateUnknownSets C addr load_store wantReport n index v report) := by
  induction n generalizing index s c v report with
  | zero => exact .ok ⟨next_refl hs, h, rfl⟩
  | succ n ih =>
    rw [updateUnknownSets_succ, updateUnknownSets]
    refine (change_agree hsame hS hs h index fun x hx y hy hxy =>
      hC.potentialUpdate x hx y hy hxy addr load_store wantReport).bind fun r r' hr => ?_
    obtain ⟨s₁, c₁, rep⟩ := r
    obtain ⟨v₁, rep'⟩ := r'
    obtain ⟨hnext, hstands, hrep⟩ := hr
    dsimp only at hnext hstands hrep ⊢
    subst hrep
    exact (ih (index + 1) hnext.valid hstands _).mono
      fun r r' hr => ⟨hnext.trans hr.1, hr.2⟩

include hsame hS hC in
theorem updatePrecise_agree (hs : Valid less S s) (h : StandsFor same S s c v)
    (addr : AbstractAddress) (load_store : AccessType) (wantReport : Bool)
    (assumption : Classification) :
    Agree (Changed less same S s) (updatePrecise T C less s c addr load_store wantReport assumption)
      (AbstractCacheImpl.updatePrecise T C v addr load_store wantReport assumption) := by
  rw [updatePrecise_eq, updatePrecise]
  refine (change_agree hsame hS hs h _ fun x hx y hy hxy =>
    hC.update x hx y hy hxy _ load_store wantReport assumption).bind fun r r' hr => ?_
  obtain ⟨s₁, c₁, report⟩ := r
  obtain ⟨v₁, report'⟩ := r'
  obtain ⟨hnext, hstands, hreport⟩ := hr
  dsimp only at hnext hstands hreport ⊢
  subst hreport
  exact .bind_same fun _ _ => .ok ⟨hnext, hstands, rfl⟩

include hsame hS hC in
theorem updateImprecise_agree (hs : Valid less S s) (h : StandsFor same S s c v)
    (addr : AbstractAddress) (load_store : AccessType) (wantReport : Bool) :
    Agree (Changed less same S s) (updateImprecise T C less s c addr load_store wantReport)
      (AbstractCacheImpl.updateImprecise T C v addr load_store wantReport) := by
  have hsets (n index : ℕ) {s : SharedStorage σ} {c : AbstractCacheImpl ℕ}
      {v : AbstractCacheImpl σ} (hs : Valid less S s) (h : StandsFor same S s c v) :=
    updateUnknownSets_agree hsame hS hC addr load_store wantReport n index hs h none
  unfold updateImprecise AbstractCacheImpl.updateImprecise
  obtain ⟨lower, upper⟩ := AbstractCacheImpl.getCacheSetInterval T addr.interval
  refine .bind_same fun _ _ => ?_
  by_cases hle : lower ≤ upper
  · rw [if_pos hle, if_pos hle]
    refine (hsets _ _ hs h).bind ?_
    rintro ⟨s₁, c₁, report⟩ ⟨v₁, _⟩ ⟨hnext, hstands, rfl⟩
    exact .ok ⟨hnext, hstands, rfl⟩
  · rw [if_neg hle, if_neg hle]
    refine (hsets _ _ hs h).bind ?_
    rintro ⟨s₁, c₁, report⟩ ⟨v₁, _⟩ ⟨hnext, hstands, rfl⟩
    refine (hsets _ _ hnext.valid hstands).bind ?_
    rintro ⟨s₂, c₂, report₂⟩ ⟨v₂, _⟩ ⟨hnext₂, hstands₂, rfl⟩
    have hresult (report : Option UpdateReport) :
        Changed less same S s (s₂, c₂, report) (v₂, report) :=
      ⟨hnext.trans hnext₂, hstands₂, rfl⟩
    cases wantReport with
    | true => exact .ok (hresult _)
    | false => exact .bind_same fun _ _ => .ok (hresult none)

include hsame hS hC in
theorem update_agree (hs : Valid less S s) (h : StandsFor same S s c v)
    (addr : AbstractAddress) (load_store : AccessType) (wantReport : Bool)
    (assumption : Classification) :
    Agree (Changed less same S s) (update T C less s c addr load_store wantReport assumption)
      (AbstractCacheImpl.update T C v addr load_store wantReport assumption) := by
  unfold update AbstractCacheImpl.update
  split_ifs
  · exact updatePrecise_agree hsame hS hC hs h addr load_store wantReport assumption
  · exact updateImprecise_agree hsame hS hC hs h addr load_store wantReport

include hsame hS hC in
theorem joinLoop_agree {ps qs : List ℕ} {xs ys : List σ} (hs : Valid less S s)
    (hx : List.Forall₂ (Stands same S s) ps xs) (hy : List.Forall₂ (Stands same S s) qs ys) :
    Agree (fun r r' => Next less S s r.1 ∧ List.Forall₂ (Stands same S r.1) r.2 r')
      (joinLoop C less s ps qs) (AbstractCacheImpl.joinLoop C xs ys) := by
  induction ps generalizing s qs xs ys with
  | nil =>
    cases hx
    exact .ok ⟨next_refl hs, .nil⟩
  | cons p ps ih =>
    obtain ⟨x, xs, hp, hps, rfl⟩ := List.forall₂_cons_left_iff.mp hx
    cases hy with
    | nil => exact .ok ⟨next_refl hs, .nil⟩
    | @cons q y qs ys hq hqs =>
      have hrest {s₁ : SharedStorage σ} {r : ℕ} {z : σ} (hnext : Next less S s s₁)
          (hr : Stands same S s₁ r z) :
          Agree (fun r r' => Next less S s r.1 ∧ List.Forall₂ (Stands same S r.1) r.2 r')
            (joinLoop C less s₁ ps qs >>= fun rest => .ok (rest.1, r :: rest.2))
            (AbstractCacheImpl.joinLoop C xs ys >>= fun zs => .ok (z :: zs)) := by
        refine (ih hnext.valid (hps.imp fun _ _ h => h.of_extends hnext.kept)
          (hqs.imp fun _ _ h => h.of_extends hnext.kept)).bind ?_
        rintro ⟨s₂, rs⟩ zs ⟨hnext₂, hrs⟩
        exact .ok ⟨hnext.trans hnext₂, .cons (hr.of_extends hnext₂.kept) hrs⟩
      have hiff : p = q ↔ C.equals x y = true :=
        (hp.2.eq_iff hsame hS hs hq.2).trans (hC.equals_iff x hp.1 y hq.1).symm
      rw [joinLoop, AbstractCacheImpl.joinLoop]
      by_cases hpq : p = q
      · rw [if_pos hpq, if_pos (hiff.mp hpq)]
        exact hrest (next_refl hs) hp
      · rw [if_neg hpq, if_neg (hiff.not.mp hpq)]
        obtain ⟨x', hx', hderef, hxx⟩ := hp.deref
        obtain ⟨y', hy', hderef', hyy⟩ := hq.deref
        rw [hderef, hderef', ok_bind, ok_bind]
        refine (hC.join x' hx' x hp.1 y' hy' y hq.1 hxx hyy).bind ?_
        rintro u u' ⟨hu, hu', huu⟩
        obtain ⟨s', r, hinsert, hnext, hr⟩ := insert_agree hsame hS hs hu hu' huu
        rw [hinsert]
        exact hrest hnext hr

include hsame hS hC in
theorem join_agree (hs : Valid less S s) (hc : StandsFor same S s c v)
    (hd : StandsFor same S s d w) :
    Agree (fun r r' => Next less S s r.1 ∧ StandsFor same S r.1 r.2 r') (join C less s c d)
      (AbstractCacheImpl.join C v w) := by
  refine (joinLoop_agree hsame hS hC hs hc hd).bind ?_
  rintro ⟨s', ps⟩ xs ⟨hnext, hps⟩
  exact .ok ⟨hnext, hps⟩

include hsame hS hC in
theorem equals_iff (hs : Valid less S s) (hc : StandsFor same S s c v)
    (hd : StandsFor same S s d w) : equals c d = equalSets C v.cacheSets w.cacheSets := by
  have hlists {ps qs : List ℕ} {xs ys : List σ} (hx : List.Forall₂ (Stands same S s) ps xs)
      (hy : List.Forall₂ (Stands same S s) qs ys) : (ps == qs) = equalSets C xs ys := by
    induction hx generalizing qs ys with
    | nil => cases hy <;> rfl
    | @cons p x ps xs hp hps ih =>
      cases hy with
      | nil => rfl
      | @cons q y qs ys hq hqs =>
        have hiff : p = q ↔ C.equals x y = true :=
          (hp.2.eq_iff hsame hS hs hq.2).trans (hC.equals_iff x hp.1 y hq.1).symm
        have hhead : (p == q) = C.equals x y := by
          rw [Bool.eq_iff_iff, beq_iff_eq]
          exact hiff
        rw [List.cons_beq_cons, hhead, ih hqs, equalSets]
  exact hlists hc hd

theorem extends_refcount (s : SharedStorage σ) (refcount : ℕ) : Extends s { s with refcount } :=
  fun _ hp => ⟨hp, rfl⟩

/-- The caches of pointers stand for caches with sets of their own, and are counted. -/
structure Represents (less : σ → σ → Except Fault Bool) (same : σ → σ → Prop) (S : Set σ)
    (state : SharedStorage σ × List (AbstractCacheImpl ℕ)) (caches : List (AbstractCacheImpl σ)) :
    Prop where
  valid : Valid less S state.1
  refcount_eq : state.1.refcount = state.2.length
  caches : List.Forall₂ (StandsFor same S state.1) state.2 caches

include hsame hS hC in
theorem step_agree (command : Command) {state : SharedStorage σ × List (AbstractCacheImpl ℕ)}
    {caches : List (AbstractCacheImpl σ)} (h : Represents less same S state caches) :
    Agree (fun r r' => Represents less same S r.1 r'.1 ∧ r.2 = r'.2) (step T C less command state)
      (valueStep T C command caches) := by
  obtain ⟨s, ptrs⟩ := state
  obtain ⟨hs, hrefcount, hcaches⟩ := h
  dsimp only at hs hrefcount hcaches
  cases command with
  | construct assumeAnEmptyCache =>
    have hkept : Valid less S s.construct ∧
        List.Forall₂ (StandsFor same S s.construct) ptrs caches := by
      by_cases hzero : s.refcount = 0
      · obtain rfl : ptrs = [] := List.eq_nil_of_length_eq_zero (hrefcount.symm.trans hzero)
        cases hcaches
        exact ⟨⟨by simp [construct, hzero], by simp [construct, hzero]⟩, .nil⟩
      · have hstorage : s.construct = s.copy := by simp [construct, copy, hzero]
        rw [hstorage]
        exact ⟨⟨hs.stored, hs.sorted⟩, hcaches.imp fun _ _ h => h.of_extends (extends_refcount s _)⟩
    obtain ⟨s', p, hinsert, hnext, hp⟩ := insert_agree hsame hS hkept.1
      (hC.new assumeAnEmptyCache) (hC.new assumeAnEmptyCache) (hsame.refl _)
    rw [step, new, hinsert, ok_bind]
    refine .ok ⟨⟨hnext.valid, ?_, ?_⟩, rfl⟩
    · rw [hnext.refcount_eq]
      simp [construct, hrefcount]
    · refine List.rel_append (hkept.2.imp fun _ _ h => h.of_extends hnext.kept) (.cons ?_ .nil)
      exact List.forall₂_iff_get.mpr ⟨by simp [AbstractCacheImpl.new], by
        simpa [AbstractCacheImpl.new] using fun _ _ => hp⟩
  | clone i =>
    refine (agree_read hcaches i).bind ?_
    rintro c v ⟨hc, _⟩
    refine .ok ⟨⟨⟨hs.stored, hs.sorted⟩, ?_, ?_⟩, rfl⟩
    · simp [copy, hrefcount]
    · exact (List.rel_append hcaches (.cons hc .nil)).imp fun _ _ h =>
        StandsFor.of_extends h (extends_refcount s _)
  | destroy i =>
    refine (agree_read hcaches i).bind ?_
    rintro c v ⟨_, hi⟩
    have hlength : (ptrs.eraseIdx i).length = ptrs.length - 1 := List.length_eraseIdx_of_lt hi
    by_cases hzero : s.refcount - 1 = 0
    · have hnil : ptrs.eraseIdx i = [] := List.eq_nil_of_length_eq_zero (by omega)
      have herased := forall₂_eraseIdx hcaches i
      rw [hnil] at herased ⊢
      rw [List.forall₂_nil_left_iff.mp herased, destroy, if_pos hzero]
      exact .ok ⟨⟨⟨by simp, .nil⟩, hzero, .nil⟩, rfl⟩
    · rw [destroy, if_neg hzero]
      refine .ok ⟨⟨⟨hs.stored, hs.sorted⟩, ?_, ?_⟩, rfl⟩
      · dsimp only
        rw [hlength, hrefcount]
      · exact (forall₂_eraseIdx hcaches i).imp fun _ _ h =>
          StandsFor.of_extends h (extends_refcount s _)
  | classify i addr =>
    refine (agree_read hcaches i).bind ?_
    rintro c v ⟨hc, _⟩
    refine (classify_agree hC hc addr).bind ?_
    rintro cl _ rfl
    exact .ok ⟨⟨hs, hrefcount, hcaches⟩, rfl⟩
  | update i addr load_store wantReport assumption =>
    refine (agree_read hcaches i).bind ?_
    rintro c v ⟨hc, _⟩
    refine (update_agree hsame hS hC hs hc addr load_store wantReport assumption).bind ?_
    rintro ⟨s', c', report⟩ ⟨v', _⟩ ⟨hnext, hc', rfl⟩
    have hkept := hcaches.imp fun _ _ h => StandsFor.of_extends h hnext.kept
    refine (agree_write hkept hc' i).bind ?_
    rintro ptrs' caches' ⟨hcaches', hlength⟩
    exact .ok ⟨⟨hnext.valid, hnext.refcount_eq.trans (hrefcount.trans hlength.symm), hcaches'⟩,
      rfl⟩
  | join i j =>
    refine (agree_read hcaches i).bind ?_
    rintro c v ⟨hc, _⟩
    refine (agree_read hcaches j).bind ?_
    rintro d w ⟨hd, _⟩
    refine (join_agree hsame hS hC hs hc hd).bind ?_
    rintro ⟨s', c'⟩ v' ⟨hnext, hc'⟩
    have hkept := hcaches.imp fun _ _ h => StandsFor.of_extends h hnext.kept
    refine (agree_write hkept hc' i).bind ?_
    rintro ptrs' caches' ⟨hcaches', hlength⟩
    exact .ok ⟨⟨hnext.valid, hnext.refcount_eq.trans (hrefcount.trans hlength.symm), hcaches'⟩,
      rfl⟩
  | equals i j =>
    refine (agree_read hcaches i).bind ?_
    rintro c v ⟨hc, _⟩
    refine (agree_read hcaches j).bind ?_
    rintro d w ⟨hd, _⟩
    rw [equals_iff hsame hS hC hs hc hd]
    exact .ok ⟨⟨hs, hrefcount, hcaches⟩, rfl⟩

include hsame hS hC in
/-- Caches of shared sets give the answers that caches with sets of their own give. -/
theorem shared_answers (commands : List Command) :
    answers (step T C less) commands (initial, []) = answers (valueStep T C) commands [] := by
  have hrun (state : SharedStorage σ × List (AbstractCacheImpl ℕ))
      (caches : List (AbstractCacheImpl σ)) (h : Represents less same S state caches) :
      Agree Eq (answers (step T C less) commands state)
        (answers (valueStep T C) commands caches) := by
    induction commands generalizing state caches with
    | nil => exact .ok rfl
    | cons command commands ih =>
      refine (step_agree hsame hS hC command h).bind ?_
      rintro ⟨state', answer⟩ ⟨caches', _⟩ ⟨h', rfl⟩
      refine (ih state' caches' h').bind ?_
      rintro rest _ rfl
      exact .ok rfl
  exact (hrun _ _ ⟨valid_initial, rfl, .nil⟩).eq

end Operations

end SharedCacheSets

end Llvmta
