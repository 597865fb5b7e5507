import Llvmta.Memory.TopologyOutcomes

/-!
# Updates of the data cache

A data access that allocates in the first level is to update the data cache before it
ends. What a run has done to a cache is read off a cache that remembers the addresses it
has been updated with; apart from this it behaves like the cache itself. An access that
ends its lookup in the second level updates the data cache only if it is handed on to
the first level.
-/

namespace Llvmta

open Checked

section Recording

variable {κ : Type}

/-- The cache together with the addresses it has been updated with, the latest first. -/
def AbstractCache.recording (C : AbstractCache κ) : AbstractCache (κ × List AbstractAddress) where
  new := fun assumeAnEmptyCache => (C.new assumeAnEmptyCache, [])
  classify := fun c addr => C.classify c.1 addr
  update := fun c addr load_store wantReport assumption => do
    let (cache, report) ← C.update c.1 addr load_store wantReport assumption
    .ok ((cache, addr :: c.2), report)
  join := fun c d => do .ok (← C.join c.1 d.1, c.2)
  enterScope := fun c scope => (C.enterScope c.1 scope, c.2)
  leaveScope := fun c scope => (C.leaveScope c.1 scope, c.2)
  alignToCacheline := C.alignToCacheline
  getHitLatency := C.getHitLatency
  getWritePolicy := C.getWritePolicy

def TopologyCaches.recording (C : TopologyCaches κ) : TopologyCaches (κ × List AbstractAddress) :=
  ⟨C.instrCache.recording, C.dataCache.recording, C.l2Cache.recording⟩

variable {C : AbstractCache κ} {c c' : κ × List AbstractAddress} {addr : AbstractAddress}
  {load_store : AccessType} {wantReport : Bool} {assumption : Classification}
  {report : Option UpdateReport}

/-- An update is remembered. -/
theorem AbstractCache.recording_update
    (h : C.recording.update c addr load_store wantReport assumption = .ok (c', report)) :
    c'.2 = addr :: c.2 := by
  obtain ⟨⟨cache, report'⟩, _, h⟩ := bind_eq_ok.mp h
  cases h
  rfl

end Recording

namespace JJYSeparateCachesMemoryTopology

section Definitions

variable (opts : TopologyOptions) {κ μ : Type} (C : TopologyCaches κ)
  (B : MemoryTopologyInterface μ)

/-- The addresses that the data cache has been updated with. -/
def updates (m : JJYSeparateCachesMemoryTopology (κ × List AbstractAddress) μ) :
    List AbstractAddress := m.dataComponent.cache.2

/-- The data access that a cycle serves: the ongoing one, or the one that is started. -/
def servedAccess (m : JJYSeparateCachesMemoryTopology κ μ) : Option Access :=
  match m.dataComponent.ongoingAccess with
  | some acc => some acc.access
  | none => m.dataComponent.waitingQueue.head?

/-- Loads allocate in the first level, and so do stores to a write-allocate cache. -/
def allocates (access : Access) : Bool :=
  access.load_store == .load || C.dataCache.getWritePolicy.writeAllocate

/-- The access ends its lookup in the second level when the data part is checked. -/
def completesL2 (acc : OngoingAccess) : Bool :=
  !acc.bgmemStall && acc.phase == .waitForCACHE && acc.bgl2AccessId != 0 &&
    (if acc.bgl2AccessId = writebackId then C.l2Cache.getHitLatency else acc.l2timeBlocked) - 1 == 0

/-- The second level reports that the access writes no line back. -/
def refutesWriteback (m : JJYSeparateCachesMemoryTopology κ μ) (acc : OngoingAccess) : Bool :=
  match C.l2Cache.update m.L2Component.cache acc.access.addr acc.access.load_store
      (wantReport C acc) acc.cl with
  | .ok (_, report) => (writebackVictim opts report).isNone
  | .error _ => false

/-- Neither the store of a write-through cache nor a write-back comes after the second
level, and the identifier there is not the one of a write-back. -/
def handedOnToL1 (m : JJYSeparateCachesMemoryTopology κ μ) (acc : OngoingAccess) : Bool :=
  acc.bgl2AccessId != writebackId &&
    if C.dataCache.getWritePolicy.writeBack then !mightMiss acc || refutesWriteback opts C m acc
    else acc.access.load_store == .load

/-- If the ongoing access allocates, has not updated the data cache and ends its lookup in
the second level, then it is handed on to the first level. -/
def handsOn (m : JJYSeparateCachesMemoryTopology κ μ) (updated : Bool) : Bool :=
  match m.dataComponent.ongoingAccess with
  | none => true
  | some acc => updated || !allocates C acc.access || !completesL2 C acc ||
      handedOnToL1 opts C m acc

/-- In a cycle the data part of a topology is checked. -/
def BeforeDataPart (potentialDataMissesPending : Bool)
    (m m₁ : JJYSeparateCachesMemoryTopology κ μ) : Prop :=
  ∃ startinstrTopology startdataTopology memory,
    Leads (mystartInstructionAccess opts C B) (clearEvents m) startinstrTopology ∧
    Leads (mystartDataAccess opts C B) startinstrTopology startdataTopology ∧
    Leads (B.cycle potentialDataMissesPending) startdataTopology.memory memory ∧
    B.shouldPipelineStall memory = false ∧
    Leads (checkInstructionPart opts C B) { startdataTopology with memory } m₁

/-- Whether the access that is served in a cycle has updated the data cache afterwards. -/
def updatedAfter (m m' : JJYSeparateCachesMemoryTopology (κ × List AbstractAddress) μ)
    (updated : Bool) : Bool :=
  match servedAccess m with
  | none => false
  | some access => m.dataComponent.ongoingAccess.isSome && updated ||
      m'.updates == access.addr :: m.updates

/-- The access that a cycle serves has ended, or an identifier has become available. -/
def Ends (m m' : JJYSeparateCachesMemoryTopology κ μ) : Prop :=
  m'.dataComponent.ongoingAccess = none ∨ m'.dataComponent.finishedId ≠ m.dataComponent.finishedId

/-- A cycle in which a condition holds when the data part is checked. -/
structure CycleUnder (E : JJYSeparateCachesMemoryTopology κ μ → Bool → Prop)
    (potentialDataMissesPending : Bool) (m : JJYSeparateCachesMemoryTopology κ μ) (updated : Bool)
    (m' : JJYSeparateCachesMemoryTopology κ μ) : Prop where
  leads : Leads (cycle opts C B potentialDataMissesPending) m m'
  condition : ∀ m₁, BeforeDataPart opts C B potentialDataMissesPending m m₁ →
    Leads (checkDataPart opts C B) m₁ m' → E m₁ (m.dataComponent.ongoingAccess.isSome && updated)

/-- The runs of a topology, with the information whether the ongoing data access has
updated the data cache. All cycles meet a condition. A run of joined topologies is one of
either of them. -/
inductive UpdateRun (E : JJYSeparateCachesMemoryTopology (κ × List AbstractAddress) μ → Bool → Prop) :
    JJYSeparateCachesMemoryTopology (κ × List AbstractAddress) μ → Bool → Prop
  | new : UpdateRun E (new C.recording B) false
  | accessInstr {m updated} (h : UpdateRun E m updated) (addr numWords : ℕ) :
    UpdateRun E (m.accessInstr addr numWords).2 updated
  | accessData {m updated} (h : UpdateRun E m updated) (addr : AbstractAddress)
    (load_store : AccessType) (numWords : ℕ) :
    UpdateRun E (m.accessData addr load_store numWords).2 updated
  | finishedInstrAccess {m updated} (h : UpdateRun E m updated) (id : ℕ) :
    UpdateRun E (m.finishedInstrAccess id).2 updated
  | finishedDataAccess {m updated} (h : UpdateRun E m updated) (id : ℕ) :
    UpdateRun E (m.finishedDataAccess id).2 updated
  | enterScope {m updated} (h : UpdateRun E m updated) (scope : PersistenceScope) :
    UpdateRun E (m.enterScope C.recording scope) updated
  | leaveScope {m updated} (h : UpdateRun E m updated) (scope : PersistenceScope) :
    UpdateRun E (m.leaveScope C.recording scope) updated
  | resetLocalMetrics {m updated} (h : UpdateRun E m updated) :
    UpdateRun E (m.resetLocalMetrics B) updated
  | cycle {m m' updated} (h : UpdateRun E m updated) (potentialDataMissesPending : Bool)
    (hm' : CycleUnder opts C.recording B E potentialDataMissesPending m updated m') :
    UpdateRun E m' (updatedAfter m m' updated)
  | fastForward {m m' updated} (h : UpdateRun E m updated) (hm' : Leads (fastForward opts B) m m') :
    UpdateRun E m' updated
  | joinLeft {m m' m'' updated updated'} (h : UpdateRun E m updated)
    (h' : UpdateRun E m' updated') (hm'' : join C.recording B m m' = .ok m'') :
    UpdateRun E m'' updated
  | joinRight {m m' m'' updated updated'} (h : UpdateRun E m updated)
    (h' : UpdateRun E m' updated') (hm'' : join C.recording B m m' = .ok m'') :
    UpdateRun E m'' updated'

end Definitions

section DataPart

variable {opts : TopologyOptions} {κ μ : Type} {C : TopologyCaches κ}
  {B : MemoryTopologyInterface μ} {acc acc₁ : OngoingAccess} {report : Option UpdateReport}
  {m m' m₁ : JJYSeparateCachesMemoryTopology (κ × List AbstractAddress) μ}

/-- What is said about the ongoing data access: the access, a bound on its phase, the
updates of the data cache and the identifier that is available. -/
structure Serves (m : JJYSeparateCachesMemoryTopology (κ × List AbstractAddress) μ)
    (acc : OngoingAccess) (updates : List AbstractAddress) (finishedId : ℕ) : Prop where
  updates : m.updates = updates
  finishedId : m.dataComponent.finishedId = finishedId
  ongoing : ∃ acc₁, m.dataComponent.ongoingAccess = some acc₁ ∧ acc₁.access = acc.access ∧
    (acc₁.phase = .waitForSTORE → acc.phase = .waitForSTORE)

/-- The data cache is not touched, and what is ongoing is a part of the access. -/
structure Untouched (m m' : JJYSeparateCachesMemoryTopology (κ × List AbstractAddress) μ)
    (acc : OngoingAccess) : Prop where
  updates : m'.updates = m.updates
  sameAccess : ∀ acc₁, m'.dataComponent.ongoingAccess = some acc₁ → acc₁.access = acc.access

theorem serves_splitDirtified {updates : List AbstractAddress} {finishedId : ℕ}
    (hm : Serves m acc updates finishedId) (h : m' ∈ splitDirtified C.recording m) :
    Serves m' acc updates finishedId := by
  unfold splitDirtified at h
  split_ifs at h <;> simp at h
  · obtain rfl | rfl := h
    · exact ⟨hm.updates, hm.finishedId, hm.ongoing⟩
    · exact hm
  · rw [h]
    exact hm

theorem untouched_splitDirtified (hm : Untouched m m₁ acc) (h : m' ∈ splitDirtified C.recording m₁) :
    Untouched m m' acc := by
  unfold splitDirtified at h
  split_ifs at h <;> simp at h
  · obtain rfl | rfl := h
    · exact ⟨hm.updates, hm.sameAccess⟩
    · exact hm
  · rw [h]
    exact hm

theorem untouched_finishData : Untouched m (finishData m acc₁) acc := by
  refine ⟨rfl, ?_⟩
  intro acc₂ hacc₂
  cases hacc₂

theorem untouched_writeThrough (hacc : acc₁.access = acc.access)
    (h : writeThrough B m acc₁ = .ok m') : Untouched m m' acc := by
  obtain ⟨⟨res, memory⟩, _, h⟩ := bind_eq_ok.mp h
  cases h
  refine ⟨rfl, ?_⟩
  intro acc₂ hacc₂
  cases hacc₂
  cases res <;> exact hacc

/-- After the second level the data cache is not touched, and an access that is handed on
to the first level goes on. -/
theorem of_afterL2Update (hacc : acc₁.access = acc.access)
    (h : Leads (afterL2Update opts C.recording B · acc₁ report) m m') :
    Untouched m m' acc ∧
      (acc₁.bgl2AccessId ≠ writebackId →
        (C.dataCache.getWritePolicy.writeBack = true →
          mightMiss acc₁ = true → writebackVictim opts report = none) →
        (C.dataCache.getWritePolicy.writeBack = false → acc₁.access.load_store = .load) →
        Serves m' acc₁ m.updates m.dataComponent.finishedId) := by
  obtain ⟨bs, h, hmem⟩ := h
  simp only [afterL2Update] at h
  split at h
  · next hstore =>
    obtain ⟨m₁, hm₁, h⟩ := bind_eq_ok.mp h
    cases h
    refine ⟨untouched_splitDirtified (untouched_writeThrough hacc hm₁) hmem, ?_⟩
    intro _ _ hload
    rw [hload hstore.2] at hstore
    cases hstore.1
  · split at h
    · next victim hmiss hvictim =>
      obtain ⟨⟨res, memory⟩, _, h⟩ := bind_eq_ok.mp h
      cases res with
      | none => cases h
      | some id =>
        cases h
        constructor
        · obtain rfl | hmem := List.mem_cons.mp hmem
          · exact untouched_finishData
          · apply untouched_splitDirtified _ hmem
            refine ⟨rfl, ?_⟩
            intro acc₂ hacc₂
            cases hacc₂
            exact hacc
        · intro _ hrefuted _
          obtain ⟨hwb, hmiss⟩ := Bool.and_eq_true_iff.mp hmiss
          cases hvictim.symm.trans (hrefuted hwb hmiss)
    · split at h
      · cases h
        constructor
        · apply untouched_splitDirtified _ hmem
          refine ⟨rfl, ?_⟩
          intro acc₂ hacc₂
          cases hacc₂
          exact hacc
        · intro _ _ _
          apply serves_splitDirtified _ hmem
          exact ⟨rfl, rfl, _, rfl, rfl, id⟩
      · next hid =>
        cases h
        refine ⟨untouched_splitDirtified (untouched_finishData) hmem, ?_⟩
        intro hne
        exact absurd hne hid

theorem dirtify_keeps (opts : TopologyOptions) (C : TopologyCaches κ) (acc : OngoingAccess)
    (report : Option UpdateReport) (c : MemoryComponent (κ × List AbstractAddress)) :
    (dirtify opts C.recording acc report c).cache = c.cache ∧
      (dirtify opts C.recording acc report c).finishedId = c.finishedId := by
  unfold dirtify
  split
  · split <;> exact ⟨rfl, rfl⟩
  · exact ⟨rfl, rfl⟩

/-- Waiting for the second level does not touch the data cache. Unless the lookup ends and
the access is not handed on to the first level, it goes on. -/
theorem of_waitForL2 (h : Leads (waitForL2 opts C.recording B · acc) m m') :
    Untouched m m' acc ∧ (Serves m' acc m.updates m.dataComponent.finishedId ∨
      (if acc.bgl2AccessId = writebackId then C.l2Cache.getHitLatency else acc.l2timeBlocked) - 1
        = 0 ∧ handedOnToL1 opts C.recording m acc = false) := by
  obtain ⟨bs, h, hmem⟩ := h
  dsimp only [waitForL2] at h
  generalize htime : (if acc.bgl2AccessId = writebackId then
    C.recording.l2Cache.getHitLatency else acc.l2timeBlocked) - 1 = l2timeBlocked at h
  split at h
  · next hzero =>
    obtain ⟨⟨cache, report⟩, hupdate, h⟩ := bind_eq_ok.mp h
    have hacc : ({ acc with l2timeBlocked } : OngoingAccess).access = acc.access := rfl
    have hafter := of_afterL2Update hacc ⟨bs, h, hmem⟩
    obtain ⟨hcache, hfinished⟩ := dirtify_keeps opts C { acc with l2timeBlocked } report
      (m.dataComponent.setOngoing { acc with l2timeBlocked })
    have hupdates : (dirtify opts C.recording { acc with l2timeBlocked } report
        (m.dataComponent.setOngoing { acc with l2timeBlocked })).cache.2 = m.updates := by
      rw [hcache]
      rfl
    constructor
    · exact ⟨hafter.1.updates.trans hupdates, hafter.1.sameAccess⟩
    · by_cases hhanded : handedOnToL1 opts C.recording m acc = true
      · left
        have hserves := hafter.2 ?_ ?_ ?_
        · exact ⟨hserves.updates.trans hupdates, hserves.finishedId.trans hfinished,
            hserves.ongoing⟩
        · intro hid
          simp [handedOnToL1, show acc.bgl2AccessId = writebackId from hid] at hhanded
        · intro hwb hmiss
          have hwb' : C.recording.dataCache.getWritePolicy.writeBack = true := hwb
          have hmiss' : mightMiss acc = true := hmiss
          have hupdate' : C.recording.l2Cache.update m.L2Component.cache acc.access.addr
              acc.access.load_store (wantReport C.recording acc) acc.cl = .ok (cache, report) :=
            hupdate
          simp only [handedOnToL1, hwb', hmiss', refutesWriteback, hupdate'] at hhanded
          simpa using (Bool.and_eq_true_iff.mp hhanded).2
        · intro hwt
          have hwt' : C.recording.dataCache.getWritePolicy.writeBack = false := hwt
          simp only [handedOnToL1, hwt'] at hhanded
          simpa using (Bool.and_eq_true_iff.mp hhanded).2
      · exact .inr ⟨htime.trans hzero, Bool.eq_false_iff.mpr hhanded⟩
  · cases h
    rw [List.mem_singleton.mp hmem]
    constructor
    · refine ⟨rfl, ?_⟩
      intro acc₂ hacc₂
      cases hacc₂
      rfl
    · exact .inl ⟨rfl, rfl, _, rfl, rfl, id⟩

/-- Whatever follows the update of the first level, the update is not undone. -/
theorem of_afterL1Update (h : Leads (afterL1Update opts C.recording B · acc report) m m') :
    Untouched m m' acc := by
  obtain ⟨bs, h, hmem⟩ := h
  simp only [afterL1Update] at h
  split_ifs at h
  · obtain ⟨m₁, hm₁, h⟩ := bind_eq_ok.mp h
    cases h
    exact untouched_splitDirtified (untouched_writeThrough rfl hm₁) hmem
  · cases h
    obtain rfl | hmem := List.mem_cons.mp hmem
    · exact untouched_finishData
    · apply untouched_splitDirtified _ hmem
      refine ⟨rfl, ?_⟩
      intro acc₂ hacc₂
      cases hacc₂
      rfl
  · cases h
    exact untouched_splitDirtified untouched_finishData hmem

/-- An access that waits for the first level updates the data cache or goes on. -/
theorem of_waitForL1 (h : Leads (waitForL1 opts C.recording B · acc) m m') :
    (∀ acc₁, m'.dataComponent.ongoingAccess = some acc₁ → acc₁.access = acc.access) ∧
      (m'.updates = acc.access.addr :: m.updates ∨
        Serves m' acc m.updates m.dataComponent.finishedId) := by
  obtain ⟨bs, h, hmem⟩ := h
  dsimp only [waitForL1] at h
  split at h
  · cases h
    rw [List.mem_singleton.mp hmem]
    constructor
    · intro acc₂ hacc₂
      cases hacc₂
      rfl
    · exact .inr ⟨rfl, rfl, _, rfl, rfl, id⟩
  · obtain ⟨⟨cache, report⟩, hupdate, h⟩ := bind_eq_ok.mp h
    obtain ⟨⟨l2cache, _⟩, _, h⟩ := bind_eq_ok.mp h
    have hafter := of_afterL1Update ⟨bs, h, hmem⟩
    refine ⟨hafter.sameAccess, .inl (hafter.updates.trans ?_)⟩
    dsimp only [updates]
    rw [(dirtify_keeps opts C _ _ _).1]
    exact C.dataCache.recording_update hupdate

/-- An access that is served updates the data cache, goes on, or has waited for a store
before. Otherwise it has ended its lookup in the second level without being handed on. -/
theorem of_checkDataPart (hacc : m.dataComponent.ongoingAccess = some acc)
    (h : Leads (checkDataPart opts C.recording B) m m') :
    (∀ acc₁, m'.dataComponent.ongoingAccess = some acc₁ → acc₁.access = acc.access) ∧
      (m'.updates = acc.access.addr :: m.updates ∨
        Serves m' acc m.updates m.dataComponent.finishedId ∨ acc.phase = .waitForSTORE ∨
        completesL2 C acc = true ∧ handedOnToL1 opts C.recording m acc = false) := by
  obtain ⟨bs, h, hmem⟩ := h
  simp only [checkDataPart, hacc] at h
  split at h
  · obtain ⟨_, _, h⟩ := bind_eq_ok.mp h
    obtain ⟨_, _, h⟩ := bind_eq_ok.mp h
    obtain ⟨⟨res, memory⟩, _, h⟩ := bind_eq_ok.mp h
    cases h
    rw [List.mem_singleton.mp hmem]
    constructor
    · intro acc₁ hacc₁
      cases hacc₁
      cases res <;> rfl
    · refine .inr (.inl ⟨rfl, rfl, _, rfl, ?_⟩)
      cases res
      · exact ⟨rfl, id⟩
      · exact ⟨rfl, id⟩
  next hstall =>
  split at h
  · obtain ⟨_, _, h⟩ := bind_eq_ok.mp h
    cases h
    rw [List.mem_singleton.mp hmem]
    constructor
    · intro acc₁ hacc₁
      cases hacc₁
      split_ifs <;> rfl
    · refine .inr (.inl ⟨rfl, rfl, _, rfl, ?_⟩)
      split_ifs
      · exact ⟨rfl, nofun⟩
      · exact ⟨rfl, id⟩
  · next hphase =>
    obtain ⟨_, _, h⟩ := bind_eq_ok.mp h
    split at h
    · next hid =>
      obtain ⟨huntouched, hgoes | ⟨htime, hhanded⟩⟩ := of_waitForL2 ⟨bs, h, hmem⟩
      · exact ⟨huntouched.sameAccess, .inr (.inl hgoes)⟩
      · refine ⟨huntouched.sameAccess, .inr (.inr (.inr ⟨?_, hhanded⟩))⟩
        simp [completesL2, hstall, hphase, hid, htime]
    · obtain ⟨hsame, hupdated | hgoes⟩ := of_waitForL1 ⟨bs, h, hmem⟩
      · exact ⟨hsame, .inl hupdated⟩
      · exact ⟨hsame, .inr (.inl hgoes)⟩
  · next hphase =>
    obtain ⟨_, _, h⟩ := bind_eq_ok.mp h
    refine ⟨?_, .inr (.inr (.inl hphase))⟩
    intro acc₁ hacc₁
    split at h
    · cases h
      rw [List.mem_singleton.mp hmem] at hacc₁
      cases hacc₁
    · cases h
      rw [List.mem_singleton.mp hmem] at hacc₁
      split at hacc₁
      · cases hacc₁
      · rw [Option.some_injective _ (hacc.symm.trans hacc₁)]
  · cases h

theorem missData_keeps (opts : TopologyOptions) (cache : AbstractCache κ) (persistence : Bool) (access : Access)
    (c : MemoryComponent (κ × List AbstractAddress)) :
    (missData opts cache.recording persistence access c).cache = c.cache ∧
      (missData opts cache.recording persistence access c).finishedId = c.finishedId := by
  unfold missData
  split_ifs <;> exact ⟨rfl, rfl⟩

/-- An access that allocates is not started as a store. -/
theorem of_processDataCacheAccess {cl : Classification}
    (h : processDataCacheAccess opts C.recording B m acc cl = .ok m') :
    m'.updates = m.updates ∧ m'.dataComponent.finishedId = m.dataComponent.finishedId ∧
      ∃ acc₁, m'.dataComponent.ongoingAccess = some acc₁ ∧ acc₁.access = acc.access ∧
        (acc₁.phase = .waitForSTORE → allocates C acc.access = false) := by
  simp only [processDataCacheAccess] at h
  split at h
  · cases h
    exact ⟨rfl, rfl, _, rfl, rfl, fun hnone => by cases hnone⟩
  split at h
  · cases h
    obtain ⟨hcache, hfinished⟩ := missData_keeps opts C.dataCache opts.dataCachePers acc.access
      m.dataComponent.countMiss
    exact ⟨congrArg Prod.snd hcache, hfinished, _, rfl, rfl, fun hnone => by cases hnone⟩
  split at h
  · next hstore =>
    obtain ⟨_, _, h⟩ := bind_eq_ok.mp h
    obtain ⟨⟨res, memory⟩, _, h⟩ := bind_eq_ok.mp h
    cases res with
    | none => cases h
    | some id =>
      cases h
      refine ⟨rfl, rfl, _, rfl, rfl, fun _ => ?_⟩
      have hallocate : C.dataCache.getWritePolicy.writeAllocate = false := hstore.2
      simp [allocates, hstore.1, hallocate]
  · obtain ⟨⟨res, memory⟩, _, h⟩ := bind_eq_ok.mp h
    cases h
    obtain ⟨hcache, hfinished⟩ := missData_keeps opts C.dataCache opts.dataCachePers acc.access
      m.dataComponent.countMiss
    refine ⟨?_, ?_, _, rfl, ?_, ?_⟩
    · dsimp only [updates, MemoryComponent.setOngoing]
      split_ifs
      · exact congrArg Prod.snd hcache
      · rfl
    · dsimp only [MemoryComponent.setOngoing]
      split_ifs
      · exact hfinished
      · rfl
    · cases res <;> rfl
    · intro hnone
      cases hnone

/-- When the data part is served, the access of the cycle is ongoing. If it has been
started in this cycle and allocates, it does not wait for a store. -/
structure ServedIn (C : TopologyCaches κ)
    (m m₁ : JJYSeparateCachesMemoryTopology (κ × List AbstractAddress) μ) (access : Access) :
    Prop where
  updates : m₁.updates = m.updates
  finishedId : m₁.dataComponent.finishedId = m.dataComponent.finishedId
  ongoing : ∃ acc, m₁.dataComponent.ongoingAccess = some acc ∧ acc.access = access ∧
    (acc.phase = .waitForSTORE → allocates C access = true →
      m.dataComponent.ongoingAccess = some acc)

theorem servedIn_of_mystartDataAccess {access : Access} (hserved : servedAccess m = some access)
    (h : Leads (mystartDataAccess opts C.recording B) m m') : ServedIn C m m' access := by
  obtain ⟨bs, h, hmem⟩ := h
  unfold mystartDataAccess at h
  split at h
  · next front rest hnone hqueue =>
    obtain ⟨L1, _, h⟩ := bind_eq_ok.mp h
    obtain ⟨L2, _, h⟩ := bind_eq_ok.mp h
    obtain ⟨cl, _, bs', hbs', hmem'⟩ := (mem_forEach h).mp hmem
    obtain ⟨m₁, hm₁, hbs'⟩ := bind_eq_ok.mp hbs'
    cases hbs'
    rw [List.mem_singleton.mp hmem']
    simp only [servedAccess, hnone, hqueue, List.head?_cons, Option.some.injEq] at hserved
    obtain ⟨hupdates, hfinished, acc, hacc, haccess, hphase⟩ := of_processDataCacheAccess hm₁
    refine ⟨hupdates, hfinished, acc, hacc, haccess.trans hserved, ?_⟩
    intro hstore hallocates
    rw [← hserved] at hallocates
    cases (hphase hstore).symm.trans hallocates
  · next hongoing =>
    cases h
    rw [List.mem_singleton.mp hmem]
    refine ⟨rfl, rfl, ?_⟩
    cases hacc : m.dataComponent.ongoingAccess with
    | some acc =>
      simp only [servedAccess, hacc, Option.some.injEq] at hserved
      exact ⟨acc, rfl, hserved, fun _ _ => rfl⟩
    | none =>
      cases hqueue : m.dataComponent.waitingQueue with
      | nil => simp [servedAccess, hacc, hqueue] at hserved
      | cons front rest => exact (hongoing front rest hacc hqueue).elim

theorem dataComponent_of_checkInstructionPart {κ : Type} {C : TopologyCaches κ}
    {m m' : JJYSeparateCachesMemoryTopology κ μ}
    (h : Leads (checkInstructionPart opts C B) m m') : m'.dataComponent = m.dataComponent := by
  obtain ⟨bs, h, hmem⟩ := h
  unfold checkInstructionPart at h
  split at h
  · cases h
    rw [List.mem_singleton.mp hmem]
  split_ifs at h
  · cases h
    rw [List.mem_singleton.mp hmem]
    rfl
  · obtain ⟨m₁, hm₁, h⟩ := bind_eq_ok.mp h
    cases h
    rw [List.mem_singleton.mp hmem]
    dsimp only [waitForInstrL2] at hm₁
    split_ifs at hm₁
    · obtain ⟨_, _, hm₁⟩ := bind_eq_ok.mp hm₁
      cases hm₁
      rfl
    · cases hm₁
      rfl
  · obtain ⟨m₁, hm₁, h⟩ := bind_eq_ok.mp h
    cases h
    rw [List.mem_singleton.mp hmem]
    dsimp only [waitForInstrL1] at hm₁
    split at hm₁
    · obtain ⟨_, _, hm₁⟩ := bind_eq_ok.mp hm₁
      obtain ⟨_, _, hm₁⟩ := bind_eq_ok.mp hm₁
      cases hm₁
      rfl
    · cases hm₁
      rfl

theorem dataComponent_of_processInstrCacheAccess {κ : Type} {C : TopologyCaches κ}
    {m m' : JJYSeparateCachesMemoryTopology κ μ} {cl : Classification}
    (h : processInstrCacheAccess opts C B m acc cl = .ok m') :
    m'.dataComponent = m.dataComponent := by
  unfold processInstrCacheAccess at h
  split_ifs at h
  · cases h
    rfl
  · obtain ⟨c, hc, h⟩ := bind_eq_ok.mp h
    cases h
    rfl
  all_goals
    obtain ⟨l2, _, h⟩ := bind_eq_ok.mp h
    obtain ⟨c, hc, h⟩ := bind_eq_ok.mp h
    obtain ⟨⟨res, memory⟩, _, h⟩ := bind_eq_ok.mp h
    cases res with
    | none => cases h
    | some id =>
      cases h
      rfl

theorem dataComponent_of_mystartInstructionAccess {κ : Type} {C : TopologyCaches κ}
    {m m' : JJYSeparateCachesMemoryTopology κ μ}
    (h : Leads (mystartInstructionAccess opts C B) m m') :
    m'.dataComponent = m.dataComponent := by
  obtain ⟨bs, h, hmem⟩ := h
  unfold mystartInstructionAccess at h
  split at h
  · obtain ⟨L1, _, h⟩ := bind_eq_ok.mp h
    obtain ⟨L2, _, h⟩ := bind_eq_ok.mp h
    obtain ⟨cl, _, bs', hbs', hmem'⟩ := (mem_forEach h).mp hmem
    obtain ⟨m₁, hm₁, hbs'⟩ := bind_eq_ok.mp hbs'
    cases hbs'
    rw [List.mem_singleton.mp hmem', dataComponent_of_processInstrCacheAccess hm₁]
  · cases h
    rw [List.mem_singleton.mp hmem]

end DataPart

section Cycle

variable {opts : TopologyOptions} {κ μ : Type} {C : TopologyCaches κ}
  {B : MemoryTopologyInterface μ} {pending : Bool} {access : Access}

/-- Either the pipeline stalls, and the data part is not checked, or it is checked. -/
theorem of_cycle {m m' : JJYSeparateCachesMemoryTopology κ μ}
    (h : Leads (cycle opts C B pending) m m') :
    (∃ m₁ m₂ memory, Leads (mystartInstructionAccess opts C B) (clearEvents m) m₁ ∧
      Leads (mystartDataAccess opts C B) m₁ m₂ ∧ m' = { m₂ with memory }) ∨
    ∃ m₁, BeforeDataPart opts C B pending m m₁ ∧ Leads (checkDataPart opts C B) m₁ m' := by
  obtain ⟨bs, h, hmem⟩ := h
  obtain ⟨starts, hstarts, h⟩ := bind_eq_ok.mp h
  obtain ⟨m₁, hm₁, bs₁, h, hmem⟩ := (mem_forEach h).mp hmem
  obtain ⟨datas, hdatas, h⟩ := bind_eq_ok.mp h
  obtain ⟨m₂, hm₂, bs₂, h, hmem⟩ := (mem_forEach h).mp hmem
  obtain ⟨memories, hmemories, h⟩ := bind_eq_ok.mp h
  obtain ⟨memory, hmemory, bs₃, h, hmem⟩ := (mem_forEach h).mp hmem
  dsimp only [afterMemoryCycle] at h
  split at h
  · cases h
    exact .inl ⟨m₁, m₂, memory, ⟨starts, hstarts, hm₁⟩, ⟨datas, hdatas, hm₂⟩,
      List.mem_singleton.mp hmem⟩
  · next hstall =>
    obtain ⟨instrs, hinstrs, h⟩ := bind_eq_ok.mp h
    obtain ⟨m₃, hm₃, hcheck⟩ := (mem_forEach h).mp hmem
    exact .inr ⟨m₃, ⟨m₁, m₂, memory, ⟨starts, hstarts, hm₁⟩, ⟨datas, hdatas, hm₂⟩,
      ⟨memories, hmemories, hmemory⟩, Bool.eq_false_iff.mpr hstall, instrs, hinstrs, hm₃⟩, hcheck⟩

variable {m m' m₁ m₂ : JJYSeparateCachesMemoryTopology (κ × List AbstractAddress) μ}
  {updated : Bool}

theorem servedIn_of_starts (hserved : servedAccess m = some access)
    (h₁ : Leads (mystartInstructionAccess opts C.recording B) (clearEvents m) m₁)
    (h₂ : Leads (mystartDataAccess opts C.recording B) m₁ m₂) : ServedIn C m m₂ access := by
  have hdata := dataComponent_of_mystartInstructionAccess h₁
  have hserved₁ : servedAccess m₁ = some access := by
    unfold servedAccess
    rw [hdata]
    exact hserved
  have hstarted := servedIn_of_mystartDataAccess hserved₁ h₂
  have hupdates : m₁.updates = m.updates := by
    unfold updates
    rw [hdata]
    rfl
  refine ⟨hstarted.updates.trans hupdates, ?_, ?_⟩
  · rw [hstarted.finishedId, hdata]
    rfl
  · obtain ⟨acc, hacc, haccess, hold⟩ := hstarted.ongoing
    refine ⟨acc, hacc, haccess, fun hstore hallocates => ?_⟩
    rw [← hold hstore hallocates, hdata]
    rfl

theorem servedIn_of_beforeDataPart (hserved : servedAccess m = some access)
    (h : BeforeDataPart opts C.recording B pending m m₁) : ServedIn C m m₁ access := by
  obtain ⟨m₂, m₃, memory, h₂, h₃, _, _, hcheck⟩ := h
  have hstarted := servedIn_of_starts hserved h₂ h₃
  have hdata := dataComponent_of_checkInstructionPart hcheck
  refine ⟨?_, ?_, ?_⟩
  · unfold updates
    rw [hdata]
    exact hstarted.updates
  · rw [hdata]
    exact hstarted.finishedId
  · obtain ⟨acc, hacc, hold⟩ := hstarted.ongoing
    exact ⟨acc, by rw [hdata]; exact hacc, hold⟩

/-- An ongoing access that allocates and waits for a store has updated the data cache. -/
def StoresUpdated (C : TopologyCaches κ)
    (m : JJYSeparateCachesMemoryTopology (κ × List AbstractAddress) μ) (updated : Bool) : Prop :=
  ∀ acc, m.dataComponent.ongoingAccess = some acc → acc.phase = .waitForSTORE →
    allocates C acc.access = true → updated = true

/-- What is ongoing after a cycle is the access that the cycle has served. -/
theorem access_of_cycle (hserved : servedAccess m = some access)
    (h : Leads (cycle opts C.recording B pending) m m') :
    ∀ acc, m'.dataComponent.ongoingAccess = some acc → acc.access = access := by
  intro acc₁ hacc₁
  obtain ⟨m₁, m₂, memory, h₁, h₂, rfl⟩ | ⟨m₁, hbefore, hcheck⟩ := of_cycle h
  · obtain ⟨acc, hacc, haccess, _⟩ := (servedIn_of_starts hserved h₁ h₂).ongoing
    cases hacc.symm.trans hacc₁
    exact haccess
  · obtain ⟨acc, hacc, haccess, _⟩ := (servedIn_of_beforeDataPart hserved hbefore).ongoing
    exact ((of_checkDataPart hacc hcheck).1 acc₁ hacc₁).trans haccess

/-- An access that allocates has updated the data cache after a cycle that serves it, or it
goes on and does not wait for a store, if the cycle hands on what it should. -/
theorem of_cycleUnder (hm : StoresUpdated C m updated) (hserved : servedAccess m = some access)
    (hallocates : allocates C access = true)
    (h : CycleUnder opts C.recording B (fun m updated => handsOn opts C.recording m updated = true)
      pending m updated m') :
    updatedAfter m m' updated = true ∨ ∃ acc, m'.dataComponent.ongoingAccess = some acc ∧
      acc.phase ≠ .waitForSTORE ∧ m'.dataComponent.finishedId = m.dataComponent.finishedId := by
  have hwaited : ∀ m₁ acc, ServedIn C m m₁ access → m₁.dataComponent.ongoingAccess = some acc →
      acc.phase = .waitForSTORE → updatedAfter m m' updated = true := by
    intro m₁ acc hstarted hacc hphase
    obtain ⟨acc₁, hacc₁, haccess, hold⟩ := hstarted.ongoing
    cases hacc.symm.trans hacc₁
    have hongoing := hold hphase hallocates
    have hupdated := hm acc hongoing hphase (by rw [haccess]; exact hallocates)
    simp [updatedAfter, hserved, hongoing, hupdated]
  obtain ⟨m₁, m₂, memory, h₁, h₂, rfl⟩ | ⟨m₁, hbefore, hcheck⟩ := of_cycle h.leads
  · have hstarted := servedIn_of_starts hserved h₁ h₂
    obtain ⟨acc, hacc, _⟩ := hstarted.ongoing
    by_cases hphase : acc.phase = .waitForSTORE
    · exact .inl (hwaited m₂ acc hstarted hacc hphase)
    · exact .inr ⟨acc, hacc, hphase, hstarted.finishedId⟩
  · have hstarted := servedIn_of_beforeDataPart hserved hbefore
    obtain ⟨acc, hacc, haccess, _⟩ := hstarted.ongoing
    have hE := h.condition m₁ hbefore hcheck
    obtain hupdates | hserves | hphase | ⟨hcompletes, hhanded⟩ := (of_checkDataPart hacc hcheck).2
    · left
      rw [hstarted.updates, haccess] at hupdates
      simp [updatedAfter, hserved, hupdates]
    · by_cases hphase : acc.phase = .waitForSTORE
      · exact .inl (hwaited m₁ acc hstarted hacc hphase)
      · obtain ⟨acc₁, hacc₁, _, hphase₁⟩ := hserves.ongoing
        exact .inr ⟨acc₁, hacc₁, fun h => hphase (hphase₁ h),
          hserves.finishedId.trans hstarted.finishedId⟩
    · exact .inl (hwaited m₁ acc hstarted hacc hphase)
    · left
      have hallocates' : allocates C.recording acc.access = true := by
        rw [haccess]
        exact hallocates
      have hcompletes' : completesL2 C.recording acc = true := hcompletes
      simp only [handsOn, hacc, hallocates', hcompletes', hhanded, Bool.not_true, Bool.or_false]
        at hE
      simp [updatedAfter, hserved, hE]

/-- Nothing is ongoing after a cycle in which nothing is served. -/
theorem ongoingAccess_of_cycle_idle (hserved : servedAccess m = none)
    (h : Leads (cycle opts C.recording B pending) m m') :
    m'.dataComponent.ongoingAccess = none := by
  have hidle : m.dataComponent.ongoingAccess = none ∧ m.dataComponent.waitingQueue = [] := by
    unfold servedAccess at hserved
    split at hserved
    · cases hserved
    · next hnone => exact ⟨hnone, List.head?_eq_none_iff.mp hserved⟩
  have hstart : ∀ m₁ m₂, Leads (mystartInstructionAccess opts C.recording B) (clearEvents m) m₁ →
      Leads (mystartDataAccess opts C.recording B) m₁ m₂ →
      m₂.dataComponent.ongoingAccess = none := by
    rintro m₁ m₂ h₁ ⟨bs, h₂, hmem⟩
    have hdata := dataComponent_of_mystartInstructionAccess h₁
    have hongoing : m₁.dataComponent.ongoingAccess = none := by
      rw [hdata]
      exact hidle.1
    have hqueue : m₁.dataComponent.waitingQueue = [] := by
      rw [hdata]
      exact hidle.2
    simp only [mystartDataAccess, hongoing, hqueue] at h₂
    cases h₂
    rw [List.mem_singleton.mp hmem]
    exact hongoing
  obtain ⟨m₁, m₂, memory, h₁, h₂, rfl⟩ | ⟨m₁, hbefore, hcheck⟩ := of_cycle h
  · exact hstart m₁ m₂ h₁ h₂
  · obtain ⟨m₂, m₃, memory, h₂, h₃, _, _, hinstr⟩ := hbefore
    have hongoing : m₁.dataComponent.ongoingAccess = none := by
      rw [dataComponent_of_checkInstructionPart hinstr]
      exact hstart m₂ m₃ h₂ h₃
    obtain ⟨bs, hcheck, hmem⟩ := hcheck
    simp only [checkDataPart, hongoing] at hcheck
    cases hcheck
    rw [List.mem_singleton.mp hmem]
    exact hongoing

theorem storesUpdated_of_cycleUnder (hm : StoresUpdated C m updated)
    (h : CycleUnder opts C.recording B (fun m updated => handsOn opts C.recording m updated = true)
      pending m updated m') : StoresUpdated C m' (updatedAfter m m' updated) := by
  intro acc hacc hphase hallocates
  cases hserved : servedAccess m with
  | none => cases (ongoingAccess_of_cycle_idle hserved h.leads).symm.trans hacc
  | some access =>
    rw [access_of_cycle hserved h.leads acc hacc] at hallocates
    obtain hupdated | ⟨acc₁, hacc₁, hphase₁, _⟩ := of_cycleUnder hm hserved hallocates h
    · exact hupdated
    · cases hacc.symm.trans hacc₁
      exact absurd hphase hphase₁

end Cycle

section Runs

variable {opts : TopologyOptions} {κ μ : Type} {C : TopologyCaches κ}
  {B : MemoryTopologyInterface μ} {pending : Bool} {access : Access}
  {m m' m'' : JJYSeparateCachesMemoryTopology (κ × List AbstractAddress) μ}
  {updated updated' : Bool}

/-- Joined topologies agree on the phase of the data access and on whether it allocates. -/
theorem ongoingAccess_of_join (h : join C.recording B m m' = .ok m'') :
    m''.dataComponent.ongoingAccess = m.dataComponent.ongoingAccess ∧
      ∀ acc, m.dataComponent.ongoingAccess = some acc →
        ∃ acc', m'.dataComponent.ongoingAccess = some acc' ∧ acc'.phase = acc.phase ∧
          acc'.access.load_store = acc.access.load_store := by
  obtain ⟨_, hjoinable, h⟩ := bind_eq_ok.mp h
  obtain ⟨_, _, h⟩ := bind_eq_ok.mp h
  obtain ⟨_, _, h⟩ := bind_eq_ok.mp h
  obtain ⟨c, hc, h⟩ := bind_eq_ok.mp h
  obtain ⟨_, _, h⟩ := bind_eq_ok.mp h
  cases h
  constructor
  · obtain ⟨_, _, hc⟩ := bind_eq_ok.mp hc
    obtain ⟨_, _, hc⟩ := bind_eq_ok.mp hc
    obtain ⟨_, _, hc⟩ := bind_eq_ok.mp hc
    obtain ⟨_, _, hc⟩ := bind_eq_ok.mp hc
    cases hc
    rfl
  · intro acc hacc
    have hequal := of_assertThat hjoinable
    simp only [isJoinable, MemoryComponent.equalsWithoutCache, Bool.and_eq_true, hacc] at hequal
    obtain ⟨⟨⟨_, ⟨⟨⟨⟨_, hongoing⟩, _⟩, _⟩, _⟩, _⟩, _⟩, _⟩ := hequal
    cases hacc' : m'.dataComponent.ongoingAccess with
    | none =>
      rw [hacc'] at hongoing
      cases hongoing
    | some acc' =>
      rw [hacc'] at hongoing
      simp only [MemoryComponent.ongoingAccessesEqual, areAccessesEqual, Bool.and_eq_true,
        beq_iff_eq] at hongoing
      refine ⟨acc', rfl, ?_, ?_⟩ <;> tauto

theorem storesUpdated_of_run
    (h : UpdateRun opts C B (fun m updated => handsOn opts C.recording m updated = true)
      m updated) : StoresUpdated C m updated := by
  induction h with
  | new =>
    intro acc hacc
    cases hacc
  | accessInstr _ _ _ ih => exact ih
  | @accessData m updated _ addr load_store numWords ih =>
    unfold accessData
    split_ifs <;> exact ih
  | finishedInstrAccess _ id ih =>
    unfold finishedInstrAccess
    split_ifs <;> exact ih
  | finishedDataAccess _ id ih =>
    unfold finishedDataAccess
    split_ifs <;> exact ih
  | enterScope _ _ ih => exact ih
  | leaveScope _ _ ih => exact ih
  | resetLocalMetrics _ ih => exact ih
  | cycle _ _ hm' ih => exact storesUpdated_of_cycleUnder ih hm'
  | fastForward _ hm' ih =>
    obtain ⟨bs, h, hmem⟩ := hm'
    unfold fastForward at h
    split_ifs at h
    · obtain ⟨forwarded, _, h⟩ := bind_eq_ok.mp h
      cases h
      obtain ⟨memory, _, rfl⟩ := List.mem_map.mp hmem
      exact ih
    · cases h
      rw [List.mem_singleton.mp hmem]
      exact ih
  | joinLeft _ _ hm'' ih _ =>
    intro acc hacc
    rw [(ongoingAccess_of_join hm'').1] at hacc
    exact ih acc hacc
  | joinRight _ _ hm'' _ ih' =>
    intro acc hacc hphase hallocates
    obtain ⟨hongoing, hequal⟩ := ongoingAccess_of_join hm''
    rw [hongoing] at hacc
    obtain ⟨acc', hacc', hphase', hload_store⟩ := hequal acc hacc
    refine ih' acc' hacc' (hphase'.trans hphase) ?_
    unfold allocates at hallocates ⊢
    rw [hload_store]
    exact hallocates

/-- In a run that hands every access on to the first level that allocates there, every
access that allocates has updated the data cache when it ends. -/
theorem allocating_updates
    (hrun : UpdateRun opts C B (fun m updated => handsOn opts C.recording m updated = true)
      m updated)
    (h : CycleUnder opts C.recording B (fun m updated => handsOn opts C.recording m updated = true)
      pending m updated m')
    (hserved : servedAccess m = some access) (hallocates : allocates C access = true)
    (hends : Ends m m') : updatedAfter m m' updated = true := by
  obtain hupdated | ⟨acc, hacc, _, hfinished⟩ :=
    of_cycleUnder (storesUpdated_of_run hrun) hserved hallocates h
  · exact hupdated
  · obtain hnone | hne := hends
    · cases hacc.symm.trans hnone
    · exact absurd hfinished hne

end Runs

section Example

/-- The two cache levels of one line each, with the addresses they have been updated with. -/
abbrev RecordingTopology := JJYSeparateCachesMemoryTopology
  (AbstractCacheImpl (LruMaxAgeAbstractCache × LruMinAgeAbstractCache) × List AbstractAddress)
  (SingleMemoryTopology SimpleSDRAMCyclingMemory)

/-- A data access waits in a new topology. -/
def firstData (load_store : AccessType) : RecordingTopology :=
  ((new oneLineCaches.recording oneLineMemory).accessData (.ofUnsigned 64) load_store 1).2

def cycleRecording : RecordingTopology → Except Fault (List RecordingTopology) :=
  cycle timingAnomalyOptions oneLineCaches.recording oneLineMemory false

/-- All results of an operation. -/
def allResults {α β : Type} (f : α → Except Fault (List β)) (p : β → Bool) (a : α) : Bool :=
  match f a with
  | .ok bs => bs.all p
  | .error _ => true

theorem of_allResults {α β : Type} {f : α → Except Fault (List β)} {p : β → Bool} {a : α} {b : β}
    (h : allResults f p a = true) (hb : Leads f a b) : p b = true := by
  obtain ⟨bs, hbs, hmem⟩ := hb
  simp only [allResults, hbs] at h
  exact List.all_eq_true.mp h b hmem

/-- The condition on a cycle, evaluated for everything that happens before the data part
is checked. -/
def handsOnBefore (m : RecordingTopology) (updated : Bool) : Bool :=
  allResults (mystartInstructionAccess timingAnomalyOptions oneLineCaches.recording oneLineMemory)
    (allResults (mystartDataAccess timingAnomalyOptions oneLineCaches.recording oneLineMemory)
      fun startdataTopology => allResults (oneLineMemory.cycle false)
        (fun memory => allResults
          (checkInstructionPart timingAnomalyOptions oneLineCaches.recording oneLineMemory)
          (handsOn timingAnomalyOptions oneLineCaches.recording · updated)
          { startdataTopology with memory })
        startdataTopology.memory)
    (clearEvents m)

theorem cycleUnder_of_handsOnBefore {m m' : RecordingTopology} {updated : Bool}
    (hm' : Leads cycleRecording m m')
    (h : handsOnBefore m (m.dataComponent.ongoingAccess.isSome && updated) = true) :
    CycleUnder timingAnomalyOptions oneLineCaches.recording oneLineMemory
      (fun m updated => handsOn timingAnomalyOptions oneLineCaches.recording m updated = true)
      false m updated m' := by
  refine ⟨hm', ?_⟩
  rintro m₁ ⟨m₂, m₃, memory, h₂, h₃, hmemory, _, hinstr⟩ _
  have hstarts := of_allResults h h₂
  have hmemories := of_allResults hstarts h₃
  have hinstrs := of_allResults hmemories hmemory
  exact of_allResults (p := fun m => handsOn timingAnomalyOptions oneLineCaches.recording m _)
    hinstrs hinstr

/-- A load is started as a hit in the second level and handed on to the first one, where
it updates the data cache and ends. -/
theorem allocating_updates_load :
    updatedAfter (nthSuccessor cycleRecording 1 (firstData .load))
      (nthSuccessor cycleRecording 0 (nthSuccessor cycleRecording 1 (firstData .load)))
      (updatedAfter (firstData .load) (nthSuccessor cycleRecording 1 (firstData .load)) false)
      = true := by
  have hfirst : UpdateRun timingAnomalyOptions oneLineCaches oneLineMemory
      (fun m updated => handsOn timingAnomalyOptions oneLineCaches.recording m updated = true)
      (firstData .load) false := .accessData .new _ _ _
  have hsecond := UpdateRun.cycle hfirst false (cycleUnder_of_handsOnBefore
    (leads_nthSuccessor (f := cycleRecording) (n := 1) (by decide +kernel)) (by decide +kernel))
  have hserved : servedAccess (nthSuccessor cycleRecording 1 (firstData .load)) =
      some ⟨1, .ofUnsigned 64, .load, 1⟩ := by decide +kernel
  apply allocating_updates hsecond
    (cycleUnder_of_handsOnBefore (leads_nthSuccessor (by decide +kernel)) (by decide +kernel))
    hserved
  · decide +kernel
  · exact .inl (by decide +kernel)

/-- A store is started as a hit in the second level, and the cycles after that. -/
def storing : ℕ → RecordingTopology
  | 0 => nthSuccessor cycleRecording 1 (firstData .store)
  | n + 1 => nthSuccessor cycleRecording 0 (storing n)

/-- As the data cache is write-through, the store is passed on from the second level. It
ends without an update of the data cache, although this is write-allocate. -/
theorem store_not_updated : ¬ ∀ (opts : TopologyOptions)
    (C : TopologyCaches (AbstractCacheImpl (LruMaxAgeAbstractCache × LruMinAgeAbstractCache)))
    (B : MemoryTopologyInterface (SingleMemoryTopology SimpleSDRAMCyclingMemory))
    (m m' : RecordingTopology) (updated pending : Bool) (access : Access),
    UpdateRun opts C B (fun _ _ => True) m updated →
    CycleUnder opts C.recording B (fun _ _ => True) pending m updated m' →
    servedAccess m = some access → allocates C access = true → Ends m m' →
      updatedAfter m m' updated = true := by
  intro h
  have hcycle : ∀ m n, hasNthSuccessor cycleRecording n m = true →
      CycleUnder timingAnomalyOptions oneLineCaches.recording oneLineMemory (fun _ _ => True) false
        m false (nthSuccessor cycleRecording n m) :=
    fun m n hn => ⟨leads_nthSuccessor hn, fun _ _ _ => trivial⟩
  have hstep : ∀ m n, UpdateRun timingAnomalyOptions oneLineCaches oneLineMemory
      (fun _ _ => True) m false → hasNthSuccessor cycleRecording n m = true →
      updatedAfter m (nthSuccessor cycleRecording n m) false = false →
      UpdateRun timingAnomalyOptions oneLineCaches oneLineMemory (fun _ _ => True)
        (nthSuccessor cycleRecording n m) false := by
    intro m n hm hn hupdated
    have hnext := UpdateRun.cycle hm false (hcycle m n hn)
    rwa [hupdated] at hnext
  have hfirst : UpdateRun timingAnomalyOptions oneLineCaches oneLineMemory (fun _ _ => True)
      (firstData .store) false := .accessData .new _ _ _
  have hstarted := hstep (firstData .store) 1 hfirst (by decide +kernel) (by decide +kernel)
  have hwaiting := hstep (storing 0) 0 hstarted (by decide +kernel) (by decide +kernel)
  have hserved : servedAccess (storing 1) = some ⟨1, .ofUnsigned 64, .store, 1⟩ := by
    decide +kernel
  have hends : Ends (storing 1) (storing 2) := .inl (by decide +kernel)
  have hupdated := h timingAnomalyOptions oneLineCaches oneLineMemory (storing 1) (storing 2) false
    false _ hwaiting (hcycle (storing 1) 0 (by decide +kernel)) hserved (by decide +kernel) hends
  have hmissing : updatedAfter (storing 1) (storing 2) false = false := by decide +kernel
  cases hmissing.symm.trans hupdated

end Example

end JJYSeparateCachesMemoryTopology

end Llvmta
