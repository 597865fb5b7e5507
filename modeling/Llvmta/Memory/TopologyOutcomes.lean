import Llvmta.Memory.CompositionalAbstractCache
import Llvmta.Memory.SimpleSDRAMCyclingMemory
import Llvmta.Memory.TopologyRuns

/-!
# The outcomes of an access that are considered

A concrete access hits the first level, the second one, or none of them. With the
timing anomaly analysis an access is started in several successors. One of them is
the concrete outcome unless the second level excludes a hit and the first one does
not: in this case a hit in the first level is not considered.
-/

namespace Llvmta

open Checked

namespace Classification

/-- A classification by one cache is right about whether that cache has the block. -/
def Admits (cl : Classification) (inCache : Bool) : Prop :=
  cl = .clHit ∧ inCache = true ∨ cl = .clMiss ∧ inCache = false ∨ cl = .clUnknown

end Classification

/-- The cache classifies the address, and correctly for what is in the concrete cache. -/
def AbstractCache.ClassifiesSoundly {κ : Type} (C : AbstractCache κ) (c : κ)
    (addr : AbstractAddress) (content : ℕ → Bool) : Prop :=
  ∃ cl, C.classify c addr = .ok cl ∧ ∀ a ∈ addr.interval, cl.Admits (content a)

namespace JJYSeparateCachesMemoryTopology

/-- The classification of an access to a block that the two levels have or not. -/
def concreteOutcome (inL1 inL2 : Bool) : Classification :=
  if inL1 then .clHit else if inL2 then .cl2Hit else .cl2Miss

section Outcomes

variable {opts : TopologyOptions} {L1 L2 : Classification} {inL1 inL2 : Bool}

/-- The concrete outcome is considered unless only the second level excludes a hit. -/
theorem concreteOutcome_mem_outcomes_iff (htiming : opts.timingAnomalyAnalysis = true)
    (hworst : opts.isBCET = false) (h1 : L1.Admits inL1) (h2 : L2.Admits inL2) :
    concreteOutcome inL1 inL2 ∈ outcomes opts L1 L2 ↔
      ¬ (L1 = .clUnknown ∧ L2 = .clMiss ∧ inL1 = true) := by
  unfold outcomes concreteOutcome
  rw [htiming, hworst]
  obtain ⟨rfl, rfl⟩ | ⟨rfl, rfl⟩ | rfl := h1
  · have hne : Classification.clHit ≠ .clUnknown := by decide
    simp [hne]
  · obtain ⟨rfl, rfl⟩ | ⟨rfl, rfl⟩ | rfl := h2
    · decide
    · decide
    · cases inL2 <;> decide
  · obtain ⟨rfl, rfl⟩ | ⟨rfl, rfl⟩ | rfl := h2
    · cases inL1 <;> decide
    · cases inL1 <;> decide
    · cases inL1 <;> cases inL2 <;> decide

/-- A miss of both levels is considered unless one of them is classified as a hit. -/
theorem cl2Miss_mem_outcomes_iff (hworst : opts.isBCET = false) :
    .cl2Miss ∈ outcomes opts L1 L2 ↔ L1 ≠ .clHit ∧ L2 ≠ .clHit := by
  have hne : Classification.cl2Miss ≠ .clHit := by decide
  have hne2 : Classification.cl2Miss ≠ .cl2Hit := by decide
  unfold outcomes
  rw [hworst]
  by_cases h1 : L1 = .clHit
  · simp [h1, hne]
  · by_cases h2 : L2 = .clHit
    · have hmem : Classification.cl2Miss ∉
          (if L1 = .clUnknown ∧ opts.timingAnomalyAnalysis = true then [Classification.clHit]
            else []) ++ [.cl2Hit] := by
        split_ifs <;> simp [hne, hne2]
      simpa [h1, h2] using hmem
    · simp [h1, h2]

theorem mem_outcomes {cl : Classification} (h : cl ∈ outcomes opts L1 L2) :
    cl = .clHit ∨ cl = .cl2Hit ∨ cl = .cl2Miss := by
  unfold outcomes at h
  split_ifs at h <;> simp at h <;> tauto

end Outcomes

section Starting

variable {opts : TopologyOptions} {κ ν : Type} {C : TopologyCaches κ} {M : AbstractCyclingMemory ν}
  {m m' : JJYSeparateCachesMemoryTopology κ (SingleMemoryTopology ν)} {acc : OngoingAccess}
  {cl L1 L2 : Classification}

/-- The ongoing access of a component carries a classification. -/
def StartedAs (c : MemoryComponent κ) (cl : Classification) : Prop :=
  ∃ acc, c.ongoingAccess = some acc ∧ acc.cl = cl

theorem startedAs_setOngoing {c : MemoryComponent κ} :
    StartedAs (c.setOngoing acc) cl ↔ acc.cl = cl := by
  simp [StartedAs, MemoryComponent.setOngoing]

/-- A start in one successor for each classification in a list. -/
theorem exists_started_iff {start : Classification → Except Fault α} {component : α → β}
    {Started : β → Classification → Prop} {cls : List Classification}
    (hstart : ∀ cl ∈ cls, ∀ a, start cl = .ok a → ∀ cl', Started (component a) cl' ↔ cl = cl') :
    (∃ as, forEach (fun cl => do .ok [← start cl]) cls = .ok as ∧
        ∃ a ∈ as, Started (component a) cl) ↔
      (∀ cl ∈ cls, ∃ a, start cl = .ok a) ∧ cl ∈ cls := by
  have hleads : ∀ cl a, Leads (fun cl => do .ok [← start cl]) cl a ↔ start cl = .ok a := by
    intro cl a
    cases h : start cl with
    | error e => simp [Leads, h, bind, Except.bind]
    | ok b => simp [Leads, h, bind, Except.bind, eq_comm]
  constructor
  · rintro ⟨as, has, a, ha, hcl⟩
    obtain ⟨cl', hcl', hlead⟩ := (mem_forEach has).mp ha
    have ha' := (hleads cl' a).mp hlead
    constructor
    · intro cl'' hcl''
      obtain ⟨bs, hbs⟩ := forEach_isOk_iff.mp ⟨as, has⟩ cl'' hcl''
      obtain ⟨b, hb, _⟩ := bind_eq_ok.mp hbs
      exact ⟨b, hb⟩
    · rwa [← (hstart cl' hcl' a ha' cl).mp hcl]
  · rintro ⟨hall, hmem⟩
    have hok : ∀ cl ∈ cls, ∃ bs, (do .ok [← start cl] : Except Fault (List α)) = .ok bs := by
      intro cl hcl
      obtain ⟨a, ha⟩ := hall cl hcl
      exact ⟨[a], by rw [ha]; rfl⟩
    obtain ⟨as, has⟩ := forEach_isOk_iff.mpr hok
    obtain ⟨a, ha⟩ := hall cl hmem
    exact ⟨as, has, a, (mem_forEach has).mpr ⟨cl, hmem, (hleads cl a).mpr ha⟩,
      (hstart cl hmem a ha cl).mpr rfl⟩

theorem exists_missInstr (opts : TopologyOptions) (cache : AbstractCache κ) (persistence : Bool)
    {access : Access} (c : MemoryComponent κ) (h : access.addr.isPrecise = true) :
    ∃ c', missInstr opts cache persistence access c = .ok c' := by
  unfold missInstr
  rw [assertThat_of h]
  split_ifs
  · exact ⟨_, rfl⟩
  · exact ⟨_, rfl⟩

/-- Whatever an instruction access is classified as, it is started as such. -/
theorem exists_processInstrCacheAccess (h : acc.access.addr.isPrecise = true) :
    ∃ m', processInstrCacheAccess opts C (SingleMemoryTopology.topology opts.background M) m acc cl =
      .ok m' := by
  unfold processInstrCacheAccess
  by_cases hhit : cl = .clHit
  · exact ⟨_, by simp only [hhit, if_pos]; rfl⟩
  by_cases hhit2 : cl = .cl2Hit
  · obtain ⟨c, hc⟩ := exists_missInstr opts C.instrCache opts.instrCachePers
      m.instructionComponent.countMiss h
    exact ⟨_, by simp only [hhit2, if_pos, hc]; rfl⟩
  obtain ⟨l2, hl2⟩ := exists_missInstr opts C.l2Cache opts.l2CachePers m.L2Component.countMiss h
  obtain ⟨c, hc⟩ := exists_missInstr opts C.instrCache opts.instrCachePers
    m.instructionComponent.countMiss h
  have haccepted : ∃ memory, (SingleMemoryTopology.topology opts.background M).accessInstr m.memory
      acc.access.addr.interval.lower (opts.ilinesize / 4) =
        .ok (some m.memory.currentId, memory) :=
    SingleMemoryTopology.accessInstr_accepted
  obtain ⟨memory, haccess⟩ := haccepted
  by_cases hmiss : cl = .cl2Miss
  · exact ⟨_, by simp only [hhit, hhit2, if_false, if_pos hmiss, hl2, hc, ok_bind, haccess]; rfl⟩
  · exact ⟨_, by simp only [hhit, hhit2, hmiss, if_false, ok_bind, haccess]; rfl⟩

theorem started_of_processInstrCacheAccess {cl' : Classification}
    (h : processInstrCacheAccess opts C (SingleMemoryTopology.topology opts.background M) m acc cl =
      .ok m') : StartedAs m'.instructionComponent cl' ↔ cl = cl' := by
  unfold processInstrCacheAccess at h
  split_ifs at h
  · cases h
    exact startedAs_setOngoing
  · obtain ⟨c, _, h⟩ := bind_eq_ok.mp h
    cases h
    exact startedAs_setOngoing
  all_goals
    obtain ⟨l2, _, h⟩ := bind_eq_ok.mp h
    obtain ⟨c, _, h⟩ := bind_eq_ok.mp h
    obtain ⟨⟨res, memory⟩, _, h⟩ := bind_eq_ok.mp h
    cases res with
    | none => cases h
    | some id =>
      cases h
      exact startedAs_setOngoing

/-- The background memory does not take a store that misses the data cache, where it is
not allocated. -/
def StoreRejected (C : TopologyCaches κ)
    (m : JJYSeparateCachesMemoryTopology κ (SingleMemoryTopology ν)) (access : Access) : Prop :=
  access.load_store = .store ∧ C.dataCache.getWritePolicy.writeAllocate = false ∧
    (C.dataCache.getWritePolicy.writeBack = true ∨ m.memory.dataQueue ≠ [])

theorem exists_storeWithoutAllocate_iff :
    (∃ m', storeWithoutAllocate C (SingleMemoryTopology.topology opts.background M) m acc = .ok m') ↔
      ¬ (C.dataCache.getWritePolicy.writeBack = true ∨ m.memory.dataQueue ≠ []) := by
  have hfull : AccessType.store = .load → acc.access.numWords = opts.dlinesize / 4 :=
    fun h => (nomatch h)
  have haccepted : (∃ id memory, (SingleMemoryTopology.topology opts.background M).accessData
      m.memory acc.access.addr .store acc.access.numWords = .ok (some id, memory)) ↔
        m.memory.dataQueue = [] :=
    SingleMemoryTopology.accessData_accepted_iff hfull
  rw [not_or, not_not, ← haccepted]
  constructor
  · rintro ⟨m', h⟩
    obtain ⟨_, hassert, h⟩ := bind_eq_ok.mp h
    obtain ⟨⟨res, memory⟩, hres, h⟩ := bind_eq_ok.mp h
    cases res with
    | none => cases h
    | some id => exact ⟨by simpa using of_assertThat hassert, id, memory, hres⟩
  · rintro ⟨hpolicy, id, memory, hres⟩
    have hassert : (!C.dataCache.getWritePolicy.writeBack) = true := by simpa using hpolicy
    exact ⟨_, by rw [storeWithoutAllocate, assertThat_of hassert, ok_bind, hres]; rfl⟩

theorem exists_loadLine :
    ∃ m', loadLine opts C (SingleMemoryTopology.topology opts.background M) m acc cl = .ok m' := by
  have hfull : AccessType.load = .load → opts.dlinesize / 4 = opts.background.dlinesize / 4 :=
    fun _ => rfl
  exact ⟨_, by rw [loadLine, SingleMemoryTopology.accessData_eq hfull]; rfl⟩

/-- A data access is started as what it is classified as, if no store is rejected. -/
theorem exists_processDataCacheAccess_iff (hcl : cl = .clHit ∨ cl = .cl2Hit ∨ cl = .cl2Miss) :
    (∃ m', processDataCacheAccess opts C (SingleMemoryTopology.topology opts.background M) m acc cl =
      .ok m') ↔ ¬ (cl = .cl2Miss ∧ StoreRejected C m acc.access) := by
  have hhit : Classification.cl2Miss ≠ .clHit := by decide
  have hhit2 : Classification.cl2Miss ≠ .cl2Hit := by decide
  have hmiss : Classification.cl2Hit ≠ .cl2Miss := by decide
  unfold processDataCacheAccess
  obtain rfl | rfl | rfl := hcl
  · simp [hhit.symm]
  · have hne : Classification.cl2Hit ≠ .clHit := by decide
    simp [hne, hmiss]
  simp only [hhit, hhit2, if_false, true_and]
  by_cases hstore : acc.access.load_store = .store ∧
      C.dataCache.getWritePolicy.writeAllocate = false
  · simp only [if_pos hstore]
    rw [exists_storeWithoutAllocate_iff, StoreRejected, ← and_assoc, and_iff_right hstore]
  · simp only [if_neg hstore]
    refine ⟨fun _ hrejected => hstore ⟨hrejected.1, hrejected.2.1⟩, fun _ => exists_loadLine⟩

theorem started_of_processDataCacheAccess {cl' : Classification}
    (h : processDataCacheAccess opts C (SingleMemoryTopology.topology opts.background M) m acc cl =
      .ok m') : StartedAs m'.dataComponent cl' ↔ cl = cl' := by
  simp only [processDataCacheAccess] at h
  split_ifs at h
  · cases h
    exact startedAs_setOngoing
  · cases h
    exact startedAs_setOngoing
  · obtain ⟨_, _, h⟩ := bind_eq_ok.mp h
    obtain ⟨⟨res, memory⟩, _, h⟩ := bind_eq_ok.mp h
    cases res with
    | none => cases h
    | some id =>
      cases h
      exact startedAs_setOngoing
  · obtain ⟨⟨res, memory⟩, _, h⟩ := bind_eq_ok.mp h
    cases h
    rw [startedAs_setOngoing]
    cases res with
    | none => rfl
    | some id => rfl

/-- No access of the component is ongoing and this one is the first that waits. -/
def Waits (c : MemoryComponent κ) (front : Access) : Prop :=
  c.ongoingAccess = none ∧ ∃ rest, c.waitingQueue = front :: rest

/-- The second level excludes a hit, the first one does not, and has the block. -/
def HitLost (C1 C2 : AbstractCache κ) (c1 c2 : κ) (addr : AbstractAddress) (inL1 : Bool) : Prop :=
  C1.classify c1 addr = .ok .clUnknown ∧ C2.classify c2 addr = .ok .clMiss ∧ inL1 = true

/-- Both levels exclude neither a miss nor classify a hit, so that a miss is started. -/
def MissStarted (C1 C2 : AbstractCache κ) (c1 c2 : κ) (addr : AbstractAddress) : Prop :=
  C1.classify c1 addr ≠ .ok .clHit ∧ C2.classify c2 addr ≠ .ok .clHit

variable {front : Access} {l1 l2 : ℕ → Bool} {a : ℕ}

theorem mystartInstructionAccess_eq {B : MemoryTopologyInterface (SingleMemoryTopology ν)}
    (hwaits : Waits m.instructionComponent front)
    (hL1 : C.instrCache.classify m.instructionComponent.cache front.addr = .ok L1)
    (hL2 : C.l2Cache.classify m.L2Component.cache front.addr = .ok L2) :
    mystartInstructionAccess opts C B m =
      forEach (fun cl => do .ok [← processInstrCacheAccess opts C B
          { m with instructionComponent := m.instructionComponent.takeWaiting front }
          (.ofAccess front) cl])
        (outcomes opts L1 L2) := by
  obtain ⟨hongoing, rest, hqueue⟩ := hwaits
  simp only [mystartInstructionAccess, hongoing, hqueue, MemoryComponent.takeWaiting, hL1, hL2,
    ok_bind]

theorem mystartDataAccess_eq {B : MemoryTopologyInterface (SingleMemoryTopology ν)}
    (hwaits : Waits m.dataComponent front)
    (hL1 : C.dataCache.classify m.dataComponent.cache front.addr = .ok L1)
    (hL2 : C.l2Cache.classify m.L2Component.cache front.addr = .ok L2) :
    mystartDataAccess opts C B m =
      forEach (fun cl => do .ok [← processDataCacheAccess opts C B
          { m with dataComponent := m.dataComponent.takeWaiting front } (.ofAccess front) cl])
        (outcomes opts L1 L2) := by
  obtain ⟨hongoing, rest, hqueue⟩ := hwaits
  simp only [mystartDataAccess, hongoing, hqueue, MemoryComponent.takeWaiting, hL1, hL2, ok_bind]

/-- The concrete outcome of an instruction access is among the successors unless a hit
is lost. -/
theorem exists_startedInstruction_iff (htiming : opts.timingAnomalyAnalysis = true)
    (hworst : opts.isBCET = false) (hwaits : Waits m.instructionComponent front)
    (hprecise : front.addr.isPrecise = true)
    (h1 : C.instrCache.ClassifiesSoundly m.instructionComponent.cache front.addr l1)
    (h2 : C.l2Cache.ClassifiesSoundly m.L2Component.cache front.addr l2)
    (ha : a ∈ front.addr.interval) :
    (∃ m', Leads (mystartInstructionAccess opts C
        (SingleMemoryTopology.topology opts.background M)) m m' ∧
        StartedAs m'.instructionComponent (concreteOutcome (l1 a) (l2 a))) ↔
      ¬ HitLost C.instrCache C.l2Cache m.instructionComponent.cache m.L2Component.cache
        front.addr (l1 a) := by
  obtain ⟨L1, hL1, hsound1⟩ := h1
  obtain ⟨L2, hL2, hsound2⟩ := h2
  have hstart : ∀ cl ∈ outcomes opts L1 L2, ∀ m', processInstrCacheAccess opts C
      (SingleMemoryTopology.topology opts.background M)
      { m with instructionComponent := m.instructionComponent.takeWaiting front }
      (.ofAccess front) cl = .ok m' → ∀ cl', StartedAs m'.instructionComponent cl' ↔ cl = cl' :=
    fun cl _ m' h cl' => started_of_processInstrCacheAccess h
  have hall : ∀ cl ∈ outcomes opts L1 L2, ∃ m', processInstrCacheAccess opts C
      (SingleMemoryTopology.topology opts.background M)
      { m with instructionComponent := m.instructionComponent.takeWaiting front }
      (.ofAccess front) cl = .ok m' :=
    fun cl _ => exists_processInstrCacheAccess hprecise
  have hlost : HitLost C.instrCache C.l2Cache m.instructionComponent.cache m.L2Component.cache
      front.addr (l1 a) ↔ L1 = .clUnknown ∧ L2 = .clMiss ∧ l1 a = true := by
    simp [HitLost, hL1, hL2]
  rw [hlost, ← concreteOutcome_mem_outcomes_iff htiming hworst (hsound1 a ha) (hsound2 a ha),
    ← and_iff_right hall (b := concreteOutcome (l1 a) (l2 a) ∈ outcomes opts L1 L2),
    ← exists_started_iff hstart, ← mystartInstructionAccess_eq hwaits hL1 hL2]
  exact ⟨fun ⟨m', ⟨as, has, hm'⟩, hcl⟩ => ⟨as, has, m', hm', hcl⟩,
    fun ⟨as, has, m', hm', hcl⟩ => ⟨m', ⟨as, has, hm'⟩, hcl⟩⟩

/-- The same for a data access, where moreover no store may be rejected. -/
theorem exists_startedData_iff (htiming : opts.timingAnomalyAnalysis = true)
    (hworst : opts.isBCET = false) (hwaits : Waits m.dataComponent front)
    (h1 : C.dataCache.ClassifiesSoundly m.dataComponent.cache front.addr l1)
    (h2 : C.l2Cache.ClassifiesSoundly m.L2Component.cache front.addr l2)
    (ha : a ∈ front.addr.interval) :
    (∃ m', Leads (mystartDataAccess opts C
        (SingleMemoryTopology.topology opts.background M)) m m' ∧
        StartedAs m'.dataComponent (concreteOutcome (l1 a) (l2 a))) ↔
      ¬ HitLost C.dataCache C.l2Cache m.dataComponent.cache m.L2Component.cache
          front.addr (l1 a) ∧
        ¬ (MissStarted C.dataCache C.l2Cache m.dataComponent.cache m.L2Component.cache front.addr ∧
          StoreRejected C m front) := by
  obtain ⟨L1, hL1, hsound1⟩ := h1
  obtain ⟨L2, hL2, hsound2⟩ := h2
  have hstart : ∀ cl ∈ outcomes opts L1 L2, ∀ m', processDataCacheAccess opts C
      (SingleMemoryTopology.topology opts.background M)
      { m with dataComponent := m.dataComponent.takeWaiting front } (.ofAccess front) cl = .ok m' →
      ∀ cl', StartedAs m'.dataComponent cl' ↔ cl = cl' :=
    fun cl _ m' h cl' => started_of_processDataCacheAccess h
  have hall : (∀ cl ∈ outcomes opts L1 L2, ∃ m', processDataCacheAccess opts C
      (SingleMemoryTopology.topology opts.background M)
      { m with dataComponent := m.dataComponent.takeWaiting front } (.ofAccess front) cl = .ok m') ↔
      ¬ (MissStarted C.dataCache C.l2Cache m.dataComponent.cache m.L2Component.cache front.addr ∧
          StoreRejected C m front) := by
    have hmiss : MissStarted C.dataCache C.l2Cache m.dataComponent.cache m.L2Component.cache
        front.addr ↔ .cl2Miss ∈ outcomes opts L1 L2 := by
      rw [cl2Miss_mem_outcomes_iff hworst, MissStarted, hL1, hL2]
      simp
    rw [hmiss]
    constructor
    · rintro h ⟨hmem, hrejected⟩
      exact (exists_processDataCacheAccess_iff (.inr (.inr rfl))).mp (h _ hmem) ⟨rfl, hrejected⟩
    · intro h cl hcl
      refine (exists_processDataCacheAccess_iff (mem_outcomes hcl)).mpr ?_
      rintro ⟨rfl, hrejected⟩
      exact h ⟨hcl, hrejected⟩
  have hlost : HitLost C.dataCache C.l2Cache m.dataComponent.cache m.L2Component.cache
      front.addr (l1 a) ↔ L1 = .clUnknown ∧ L2 = .clMiss ∧ l1 a = true := by
    simp [HitLost, hL1, hL2]
  rw [hlost, ← concreteOutcome_mem_outcomes_iff htiming hworst (hsound1 a ha) (hsound2 a ha),
    and_comm, ← hall, ← exists_started_iff hstart, ← mystartDataAccess_eq hwaits hL1 hL2]
  exact ⟨fun ⟨m', ⟨as, has, hm'⟩, hcl⟩ => ⟨as, has, m', hm', hcl⟩,
    fun ⟨as, has, m', hm', hcl⟩ => ⟨m', ⟨as, has, hm'⟩, hcl⟩⟩

end Starting

section Runs

variable {opts : TopologyOptions} {κ ν : Type} {C : TopologyCaches κ} {M : AbstractCyclingMemory ν}
  {m : JJYSeparateCachesMemoryTopology κ (SingleMemoryTopology ν)} {front : Access}
  {l1 l2 : ℕ → Bool} {a : ℕ}

/-- In every topology that is reached, starting an instruction access considers the
concrete outcome unless a hit is lost. So does starting a data access afterwards, unless
a hit is lost or a store is rejected. -/
theorem start_explores (htiming : opts.timingAnomalyAnalysis = true)
    (hworst : opts.isBCET = false)
    (hm : Reachable opts C (SingleMemoryTopology.topology opts.background M) m)
    (ha : a ∈ front.addr.interval) :
    (Waits m.instructionComponent front →
      C.instrCache.ClassifiesSoundly m.instructionComponent.cache front.addr l1 →
      C.l2Cache.ClassifiesSoundly m.L2Component.cache front.addr l2 →
        ((∃ m', Leads (mystartInstructionAccess opts C
            (SingleMemoryTopology.topology opts.background M)) m.clearEvents m' ∧
            StartedAs m'.instructionComponent (concreteOutcome (l1 a) (l2 a))) ↔
          ¬ HitLost C.instrCache C.l2Cache m.instructionComponent.cache m.L2Component.cache
            front.addr (l1 a))) ∧
    ∀ m₁, Leads (mystartInstructionAccess opts C
        (SingleMemoryTopology.topology opts.background M)) m.clearEvents m₁ →
      Waits m₁.dataComponent front →
      C.dataCache.ClassifiesSoundly m₁.dataComponent.cache front.addr l1 →
      C.l2Cache.ClassifiesSoundly m₁.L2Component.cache front.addr l2 →
        ((∃ m', Leads (mystartDataAccess opts C
            (SingleMemoryTopology.topology opts.background M)) m₁ m' ∧
            StartedAs m'.dataComponent (concreteOutcome (l1 a) (l2 a))) ↔
          ¬ HitLost C.dataCache C.l2Cache m₁.dataComponent.cache m₁.L2Component.cache
              front.addr (l1 a) ∧
            ¬ (MissStarted C.dataCache C.l2Cache m₁.dataComponent.cache m₁.L2Component.cache
                front.addr ∧ StoreRejected C m₁ front)) := by
  constructor
  · intro hwaits h1 h2
    have hfront : front ∈ m.instructionComponent.waitingQueue := by
      obtain ⟨_, rest, hqueue⟩ := hwaits
      rw [hqueue]
      exact List.mem_cons_self
    have hprecise := preciseFetches_of_reachable hm front hfront
    exact exists_startedInstruction_iff (m := m.clearEvents) htiming hworst hwaits hprecise h1 h2 ha
  · intro m₁ _ hwaits h1 h2
    exact exists_startedData_iff htiming hworst hwaits h1 h2 ha

end Runs

section Example

/-- A single core. -/
def oneCore : Multicore := ⟨false, 0, [], fun _ => []⟩

/-- A cache of one line of 16 bytes. -/
def oneLine (level : ℤ) : CacheTraits := ⟨16, 1, 1, false, true, level, 1⟩

def oneLineCaches :
    TopologyCaches (AbstractCacheImpl (LruMaxAgeAbstractCache × LruMinAgeAbstractCache)) :=
  ⟨makeOptionsCache (oneLine 1) oneCore, makeOptionsCache (oneLine 1) oneCore,
    makeOptionsCache (oneLine 2) oneCore⟩

def refreshing : AbstractCyclingMemory SimpleSDRAMCyclingMemory :=
  SimpleSDRAMCyclingMemory.memory ⟨1, 1, 10, true, false⟩

def timingAnomalyOptions : TopologyOptions :=
  ⟨true, false, false, false, false, false, false, false, false, false, false, false, 16, 16⟩

abbrev OneLineTopology :=
  JJYSeparateCachesMemoryTopology (AbstractCacheImpl (LruMaxAgeAbstractCache × LruMinAgeAbstractCache))
    (SingleMemoryTopology SimpleSDRAMCyclingMemory)

def oneLineMemory : MemoryTopologyInterface (SingleMemoryTopology SimpleSDRAMCyclingMemory) :=
  SingleMemoryTopology.topology timingAnomalyOptions.background refreshing

/-- A fetch waits in a new topology. -/
def firstFetch : OneLineTopology := ((new oneLineCaches oneLineMemory).accessInstr 128 1).2

theorem start_explores_firstFetch : ∃ m', Leads (mystartInstructionAccess timingAnomalyOptions
      oneLineCaches oneLineMemory) firstFetch.clearEvents m' ∧
    StartedAs m'.instructionComponent (concreteOutcome true false) := by
  have hreach : Reachable timingAnomalyOptions oneLineCaches oneLineMemory firstFetch :=
    .accessInstr .new 128 1
  have hwaits : Waits firstFetch.instructionComponent ⟨1, .ofUnsigned 128, .load, 1⟩ :=
    ⟨rfl, [], rfl⟩
  have h1 : oneLineCaches.instrCache.ClassifiesSoundly firstFetch.instructionComponent.cache
      (.ofUnsigned 128) fun _ => true :=
    ⟨.clUnknown, by decide +kernel, fun _ _ => .inr (.inr rfl)⟩
  have hclassify : oneLineCaches.l2Cache.classify firstFetch.L2Component.cache
      (.ofUnsigned 128) = .ok .clUnknown := by decide +kernel
  have h2 : oneLineCaches.l2Cache.ClassifiesSoundly firstFetch.L2Component.cache
      (.ofUnsigned 128) fun _ => false := ⟨.clUnknown, hclassify, fun _ _ => .inr (.inr rfl)⟩
  refine ((start_explores (a := 128) rfl rfl hreach ⟨by decide, by decide⟩).1 hwaits h1 h2).mpr ?_
  rintro ⟨_, hmiss, _⟩
  cases hclassify.symm.trans hmiss

/-- A load has been started as a hit in the second level. -/
def loading : OneLineTopology :=
  nthSuccessor (cycle timingAnomalyOptions oneLineCaches oneLineMemory false) 1
    ((new oneLineCaches oneLineMemory).accessData (.ofUnsigned 64) .load 1).2

/-- The load is over, and a fetch from another line waits. -/
def secondLine : OneLineTopology :=
  ((nthSuccessor (cycle timingAnomalyOptions oneLineCaches oneLineMemory false) 0
    loading).accessInstr 128 1).2

theorem reachable_secondLine :
    Reachable timingAnomalyOptions oneLineCaches oneLineMemory secondLine := by
  have hload : Reachable timingAnomalyOptions oneLineCaches oneLineMemory loading := by
    apply Reachable.cycle (.accessData .new (.ofUnsigned 64) .load 1) false
    apply leads_nthSuccessor
    decide +kernel
  apply Reachable.accessInstr
  apply Reachable.cycle hload false
  apply leads_nthSuccessor
  decide +kernel

/-- After the load the second level has no room for the line that is fetched, but the
instruction cache may still have it. -/
theorem hit_not_explored : ¬ ∀ (opts : TopologyOptions)
    (C : TopologyCaches (AbstractCacheImpl (LruMaxAgeAbstractCache × LruMinAgeAbstractCache)))
    (m : OneLineTopology) (front : Access) (l1 l2 : ℕ → Bool),
    opts.timingAnomalyAnalysis = true → opts.isBCET = false → opts.preemptiveExecution = false →
    Reachable opts C (SingleMemoryTopology.topology opts.background refreshing) m →
    Waits m.instructionComponent front →
    C.instrCache.ClassifiesSoundly m.instructionComponent.cache front.addr l1 →
    C.l2Cache.ClassifiesSoundly m.L2Component.cache front.addr l2 →
    ∀ a ∈ front.addr.interval, ∃ m', Leads (mystartInstructionAccess opts C
        (SingleMemoryTopology.topology opts.background refreshing)) m.clearEvents m' ∧
      StartedAs m'.instructionComponent (concreteOutcome (l1 a) (l2 a)) := by
  intro h
  have hwaits : Waits secondLine.instructionComponent ⟨2, .ofUnsigned 128, .load, 1⟩ :=
    ⟨by decide +kernel, [], by decide +kernel⟩
  have hclassify : oneLineCaches.instrCache.classify secondLine.instructionComponent.cache
      (.ofUnsigned 128) = .ok .clUnknown := by decide +kernel
  have hclassify2 : oneLineCaches.l2Cache.classify secondLine.L2Component.cache
      (.ofUnsigned 128) = .ok .clMiss := by decide +kernel
  have h1 : oneLineCaches.instrCache.ClassifiesSoundly secondLine.instructionComponent.cache
      (.ofUnsigned 128) fun a => decide (a / 16 = 8) :=
    ⟨.clUnknown, hclassify, fun _ _ => .inr (.inr rfl)⟩
  have h2 : oneLineCaches.l2Cache.ClassifiesSoundly secondLine.L2Component.cache
      (.ofUnsigned 128) fun a => decide (a / 16 = 4) := by
    refine ⟨.clMiss, hclassify2, fun a ha => .inr (.inl ⟨rfl, ?_⟩)⟩
    have haddr : a = 128 := le_antisymm ha.2 ha.1
    rw [haddr]
    rfl
  have hmem : 128 ∈ (AbstractAddress.ofUnsigned 128).interval := ⟨by decide, by decide⟩
  have hexplored := h timingAnomalyOptions oneLineCaches secondLine _ _ _ rfl rfl rfl
    reachable_secondLine hwaits h1 h2 128 hmem
  have hlost := (exists_startedInstruction_iff (m := secondLine.clearEvents) rfl rfl hwaits
    (AbstractAddress.isPrecise_ofUnsigned 128) h1 h2 hmem).mp hexplored
  exact hlost ⟨hclassify, hclassify2, rfl⟩

end Example

end JJYSeparateCachesMemoryTopology

end Llvmta
