import Llvmta.AnalysisFramework.GraphIterator
import Llvmta.Memory.ExactUpdates

/-!
# Caches as a domain of the fixpoint iteration

The states that the operations of a cache set analysis keep form a join semilattice, the
analysis of a cache the product of its sets. An update that fails ends the program; there is
none among the exact accesses.
-/

namespace Llvmta

open Checked

variable {T : CacheTraits} {σ : Type} {C : CacheSetAnalysis σ} {W : σ → Prop}

/-- The operations of an analysis keep the states with `W`, and join them in their order. -/
structure KeepsStates (C : CacheSetAnalysis σ) (W : σ → Prop) [SemilatticeSup {s // W s}] :
    Prop where
  new : ∀ assumeAnEmptyCache, W (C.new assumeAnEmptyCache)
  update : ∀ s addr load_store wantReport assumption res, W s →
    C.update s addr load_store wantReport assumption = .ok res → W res.1
  potentialUpdate : ∀ s addr load_store wantReport res, W s →
    C.potentialUpdate s addr load_store wantReport = .ok res → W res.1
  join : ∀ x y : {s // W s}, C.join x.1 y.1 = .ok (x ⊔ y).1
  equals : ∀ x y : {s // W s}, C.equals x.1 y.1 = true ↔ x = y

/-- A state with `W` for each set. -/
abbrev LatticeCache (T : CacheTraits) (W : σ → Prop) : Type := Fin T.nSets → {s // W s}

/-- All sets of a cache have `W`. -/
structure KeptStates (T : CacheTraits) (W : σ → Prop) (c : AbstractCacheImpl σ) : Prop where
  length : c.cacheSets.length = T.nSets
  states : ∀ s ∈ c.cacheSets, W s

namespace KeptStates

variable {c c' : AbstractCacheImpl σ}

theorem of_write (h : KeptStates T W c) {i : ℕ} {s : σ} (hs : W s) {sets : List σ}
    (hsets : write c.cacheSets i s = .ok sets) : KeptStates T W ⟨sets⟩ := by
  constructor
  · exact (length_of_write hsets).trans h.length
  · intro t ht
    obtain ⟨j, hj⟩ := List.mem_iff_getElem?.mp ht
    rw [getElem?_of_write hsets] at hj
    split_ifs at hj
    · obtain rfl := Option.some_inj.mp hj
      exact hs
    · exact h.states t (List.mem_of_getElem? hj)

variable [SemilatticeSup {s // W s}] (hC : KeepsStates C W) {addr : AbstractAddress}
  {load_store : AccessType}

include hC

theorem updatePrecise (h : KeptStates T W c) {wantReport : Bool} {assumption : Classification}
    {res : AbstractCacheImpl σ × Option UpdateReport}
    (hres : AbstractCacheImpl.updatePrecise T C c addr load_store wantReport assumption = .ok res) :
    KeptStates T W res.1 := by
  obtain ⟨set, hset, hres⟩ := bind_eq_ok.mp hres
  obtain ⟨⟨set', report⟩, hset', hres⟩ := bind_eq_ok.mp hres
  obtain ⟨sets, hsets, hres⟩ := bind_eq_ok.mp hres
  obtain ⟨_, _, hres⟩ := bind_eq_ok.mp hres
  cases hres
  have hW := h.states set (List.mem_of_getElem? (getElem?_of_read hset))
  exact h.of_write (hC.update _ _ _ _ _ _ hW hset') hsets

theorem updateUnknownSets (n : ℕ) (h : KeptStates T W c) {wantReport : Bool} {index : ℕ}
    {report : Option UpdateReport} {res : AbstractCacheImpl σ × Option UpdateReport}
    (hres : AbstractCacheImpl.updateUnknownSets C addr load_store wantReport n index c report =
      .ok res) : KeptStates T W res.1 := by
  induction n generalizing index c report with
  | zero =>
    cases hres
    exact h
  | succ n ih =>
    obtain ⟨set, hset, hres⟩ := bind_eq_ok.mp hres
    obtain ⟨⟨set', report'⟩, hset', hres⟩ := bind_eq_ok.mp hres
    obtain ⟨sets, hsets, hres⟩ := bind_eq_ok.mp hres
    have hW := h.states set (List.mem_of_getElem? (getElem?_of_read hset))
    exact ih (h.of_write (hC.potentialUpdate _ _ _ _ _ hW hset') hsets) hres

theorem updateImprecise (h : KeptStates T W c) {wantReport : Bool}
    {res : AbstractCacheImpl σ × Option UpdateReport}
    (hres : AbstractCacheImpl.updateImprecise T C c addr load_store wantReport = .ok res) :
    KeptStates T W res.1 := by
  unfold AbstractCacheImpl.updateImprecise at hres
  dsimp only at hres
  obtain ⟨_, _, hres⟩ := bind_eq_ok.mp hres
  by_cases hle : (AbstractCacheImpl.getCacheSetInterval T addr.interval).1 ≤
      (AbstractCacheImpl.getCacheSetInterval T addr.interval).2
  · rw [if_pos hle] at hres
    obtain ⟨⟨d, report⟩, hd, hres⟩ := bind_eq_ok.mp hres
    have hkept : KeptStates T W d := updateUnknownSets hC _ h hd
    cases hres
    exact hkept
  · rw [if_neg hle] at hres
    obtain ⟨⟨d, report⟩, hd, hres⟩ := bind_eq_ok.mp hres
    obtain ⟨⟨e, report'⟩, he, hres⟩ := bind_eq_ok.mp hres
    have hkept : KeptStates T W d := updateUnknownSets hC _ h hd
    have hkept' : KeptStates T W e := updateUnknownSets hC _ hkept he
    split_ifs at hres
    · cases hres
      exact hkept'
    · obtain ⟨_, _, hres⟩ := bind_eq_ok.mp hres
      cases hres
      exact hkept'

theorem update (h : KeptStates T W c) {wantReport : Bool} {assumption : Classification}
    {res : AbstractCacheImpl σ × Option UpdateReport}
    (hres : AbstractCacheImpl.update T C c addr load_store wantReport assumption = .ok res) :
    KeptStates T W res.1 := by
  unfold AbstractCacheImpl.update at hres
  split_ifs at hres
  · exact updatePrecise hC h hres
  · exact updateImprecise hC h hres

end KeptStates

namespace LatticeCache

/-- The cache of the analysis. -/
def toCache (c : LatticeCache T W) : AbstractCacheImpl σ := ⟨List.ofFn fun i => (c i).1⟩

def ofCache (c : AbstractCacheImpl σ) (h : KeptStates T W c) : LatticeCache T W := fun i =>
  ⟨c.cacheSets.get (i.cast h.length.symm), h.states _ (List.get_mem _ _)⟩

theorem keptStates_toCache (c : LatticeCache T W) : KeptStates T W c.toCache := by
  constructor
  · exact List.length_ofFn
  · intro s hs
    obtain ⟨i, rfl⟩ := List.mem_ofFn.mp hs
    exact (c i).2

theorem toCache_ofCache (c : AbstractCacheImpl σ) (h : KeptStates T W c) :
    toCache (ofCache c h) = c := by
  apply AbstractCacheImpl.ext
  apply List.ext_getElem
  · simp [toCache, h.length]
  · intro i hi hi'
    simp [toCache, ofCache]

theorem getElem?_toCache (c : LatticeCache T W) (i : Fin T.nSets) :
    c.toCache.cacheSets[(i : ℕ)]? = some (c i).1 := by
  simp [toCache]

variable [SemilatticeSup {s // W s}] (hC : KeepsStates C W)

def new (assumeAnEmptyCache : Bool) : LatticeCache T W := fun _ =>
  ⟨C.new assumeAnEmptyCache, hC.new assumeAnEmptyCache⟩

/-- The update of the cache; one that fails has no result to go on with. -/
def update (c : LatticeCache T W) (addr : AbstractAddress) (load_store : AccessType) :
    LatticeCache T W :=
  match h : AbstractCacheImpl.update T C c.toCache addr load_store false .clUnknown with
  | .ok res => ofCache res.1 (c.keptStates_toCache.update hC h)
  | .error _ => c

/-- The domain of the caches, which depends on no other information. -/
def domain (T : CacheTraits) : CacheDomain (LatticeCache T W) Unit where
  new := new hC
  update c addr load_store _ := update hC c addr load_store

theorem toCache_new (b : Bool) :
    (new hC b : LatticeCache T W).toCache = AbstractCacheImpl.new T C b := by
  simp [new, toCache, AbstractCacheImpl.new]

theorem toCache_update {c : LatticeCache T W} {addr : AbstractAddress} {load_store : AccessType}
    {res : AbstractCacheImpl σ × Option UpdateReport}
    (h : AbstractCacheImpl.update T C c.toCache addr load_store false .clUnknown = .ok res) :
    (update hC c addr load_store).toCache = res.1 := by
  unfold update
  split
  · next res' hres =>
    rw [h] at hres
    cases hres
    exact toCache_ofCache _ _
  · next hfail =>
    rw [h] at hfail
    cases hfail

include hC in
theorem joinLoop_ofFn {n : ℕ} (f g : Fin n → {s // W s}) :
    AbstractCacheImpl.joinLoop C (List.ofFn fun i => (f i).1) (List.ofFn fun i => (g i).1) =
      .ok (List.ofFn fun i => (f i ⊔ g i).1) := by
  induction n with
  | zero => rfl
  | succ n ih =>
    rw [List.ofFn_succ, List.ofFn_succ, List.ofFn_succ, AbstractCacheImpl.joinLoop]
    simp only [hC.join, ih (fun i => f i.succ) fun i => g i.succ, ok_bind]
    split_ifs with heq
    · rw [(hC.equals _ _).mp heq, sup_idem]
    · rfl

include hC in
/-- The join of the code is the least upper bound. -/
theorem join_toCache (c d : LatticeCache T W) :
    AbstractCacheImpl.join C c.toCache d.toCache = .ok (c ⊔ d : LatticeCache T W).toCache := by
  rw [AbstractCacheImpl.join, toCache, toCache, joinLoop_ofFn hC, ok_bind]
  rfl

/-- An exact access changes each set on its own. -/
theorem setStep_update (hT : T.Geometry) {addr : AbstractAddress} (hexact : ExactAccess T addr)
    {load_store : AccessType} {c : LatticeCache T W}
    (hok : ∀ (i : ℕ) s, W s →
      ∃ s', AbstractCacheImpl.SetStep T C addr load_store .clUnknown i s s') (i : Fin T.nSets) :
    AbstractCacheImpl.SetStep T C addr load_store .clUnknown i (c i).1
      (update hC c addr load_store i).1 := by
  have hsteps : ∀ i s, c.toCache.cacheSets[i]? = some s →
      ∃ s', AbstractCacheImpl.SetStep T C addr load_store .clUnknown i s s' := fun i s hs =>
    hok i s (c.keptStates_toCache.states s (List.mem_of_getElem? hs))
  obtain ⟨c', report, hc', _, hsets⟩ := AbstractCacheImpl.update_exact hT hexact
    c.keptStates_toCache.length hsteps
  obtain ⟨s', hs', hstep⟩ := hsets i _ (c.getElem?_toCache i)
  have hget := (update hC c addr load_store).getElem?_toCache i
  rw [toCache_update hC hc'] at hget
  obtain rfl := Option.some_inj.mp (hs'.symm.trans hget)
  exact hstep

end LatticeCache

end Llvmta
