import Llvmta.Memory.JJYSeparateCachesMemoryTopology

/-!
# Runs of the topology with two cache levels

The topologies that the operations of the interface lead to. What serves data
accesses leaves the instruction component alone, and a cycle takes accesses from the
queue of the instruction component only. An instruction access that waits is one to a
precise address, because only `accessInstr` adds accesses.
-/

namespace Llvmta

open Checked

namespace JJYSeparateCachesMemoryTopology

variable {opts : TopologyOptions} {κ μ : Type} {C : TopologyCaches κ}
  {B : MemoryTopologyInterface μ} {m m' : JJYSeparateCachesMemoryTopology κ μ}
  {acc : OngoingAccess} {cl : Classification}

/-- The topologies that are reached from a new one. -/
inductive Reachable (opts : TopologyOptions) (C : TopologyCaches κ)
    (B : MemoryTopologyInterface μ) : JJYSeparateCachesMemoryTopology κ μ → Prop
  | new : Reachable opts C B (new C B)
  | accessInstr {m : JJYSeparateCachesMemoryTopology κ μ} (h : Reachable opts C B m)
    (addr numWords : ℕ) : Reachable opts C B (m.accessInstr addr numWords).2
  | accessData {m : JJYSeparateCachesMemoryTopology κ μ} (h : Reachable opts C B m)
    (addr : AbstractAddress) (load_store : AccessType) (numWords : ℕ) :
    Reachable opts C B (m.accessData addr load_store numWords).2
  | finishedInstrAccess {m : JJYSeparateCachesMemoryTopology κ μ} (h : Reachable opts C B m)
    (id : ℕ) : Reachable opts C B (m.finishedInstrAccess id).2
  | finishedDataAccess {m : JJYSeparateCachesMemoryTopology κ μ} (h : Reachable opts C B m)
    (id : ℕ) : Reachable opts C B (m.finishedDataAccess id).2
  | enterScope {m : JJYSeparateCachesMemoryTopology κ μ} (h : Reachable opts C B m)
    (scope : PersistenceScope) : Reachable opts C B (m.enterScope C scope)
  | leaveScope {m : JJYSeparateCachesMemoryTopology κ μ} (h : Reachable opts C B m)
    (scope : PersistenceScope) : Reachable opts C B (m.leaveScope C scope)
  | resetLocalMetrics {m : JJYSeparateCachesMemoryTopology κ μ} (h : Reachable opts C B m) :
    Reachable opts C B (m.resetLocalMetrics B)
  | cycle {m m' : JJYSeparateCachesMemoryTopology κ μ} (h : Reachable opts C B m)
    (potentialDataMissesPending : Bool)
    (hm' : Leads (cycle opts C B potentialDataMissesPending) m m') : Reachable opts C B m'
  | fastForward {m m' : JJYSeparateCachesMemoryTopology κ μ} (h : Reachable opts C B m)
    (hm' : Leads (fastForward opts B) m m') : Reachable opts C B m'
  | join {m m' m'' : JJYSeparateCachesMemoryTopology κ μ} (h : Reachable opts C B m)
    (h' : Reachable opts C B m') (hm'' : join C B m m' = .ok m'') : Reachable opts C B m''

/-- Instruction accesses that wait are precise. -/
def PreciseFetches (m : JJYSeparateCachesMemoryTopology κ μ) : Prop :=
  ∀ access ∈ m.instructionComponent.waitingQueue, access.addr.isPrecise = true

section Data

theorem instructionComponent_of_splitDirtified (h : m' ∈ splitDirtified C m) :
    m'.instructionComponent = m.instructionComponent := by
  unfold splitDirtified at h
  split_ifs at h <;> simp at h
  · obtain rfl | rfl := h <;> rfl
  · rw [h]

theorem instructionComponent_of_writeThrough (h : writeThrough B m acc = .ok m') :
    m'.instructionComponent = m.instructionComponent := by
  obtain ⟨⟨res, memory⟩, _, h⟩ := bind_eq_ok.mp h
  cases h
  rfl

theorem instructionComponent_of_afterL2Update {report : Option UpdateReport}
    (h : Leads (afterL2Update opts C B · acc report) m m') :
    m'.instructionComponent = m.instructionComponent := by
  obtain ⟨bs, h, hmem⟩ := h
  simp only [afterL2Update] at h
  split at h
  · obtain ⟨m₁, hm₁, h⟩ := bind_eq_ok.mp h
    cases h
    rw [instructionComponent_of_splitDirtified hmem, instructionComponent_of_writeThrough hm₁]
  · split at h
    · obtain ⟨⟨res, memory⟩, _, h⟩ := bind_eq_ok.mp h
      cases res with
      | none => cases h
      | some id =>
        cases h
        obtain rfl | hmem := List.mem_cons.mp hmem
        · rfl
        · rw [instructionComponent_of_splitDirtified hmem]
    · split at h <;> cases h
      · rw [instructionComponent_of_splitDirtified hmem]
      · rw [instructionComponent_of_splitDirtified hmem]
        rfl

theorem instructionComponent_of_waitForL2 (h : Leads (waitForL2 opts C B · acc) m m') :
    m'.instructionComponent = m.instructionComponent := by
  obtain ⟨bs, h, hmem⟩ := h
  dsimp only [waitForL2] at h
  generalize (if acc.bgl2AccessId = writebackId then C.l2Cache.getHitLatency
    else acc.l2timeBlocked) - 1 = l2timeBlocked at h
  split at h
  · obtain ⟨⟨cache, report⟩, _, h⟩ := bind_eq_ok.mp h
    exact (instructionComponent_of_afterL2Update ⟨bs, h, hmem⟩).trans rfl
  · cases h
    rw [List.mem_singleton.mp hmem]

theorem instructionComponent_of_afterL1Update {report : Option UpdateReport}
    (h : Leads (afterL1Update opts C B · acc report) m m') :
    m'.instructionComponent = m.instructionComponent := by
  obtain ⟨bs, h, hmem⟩ := h
  simp only [afterL1Update] at h
  split_ifs at h
  · obtain ⟨m₁, hm₁, h⟩ := bind_eq_ok.mp h
    cases h
    rw [instructionComponent_of_splitDirtified hmem, instructionComponent_of_writeThrough hm₁]
  · cases h
    obtain rfl | hmem := List.mem_cons.mp hmem
    · rfl
    · rw [instructionComponent_of_splitDirtified hmem]
  · cases h
    rw [instructionComponent_of_splitDirtified hmem]
    rfl

theorem instructionComponent_of_waitForL1 (h : Leads (waitForL1 opts C B · acc) m m') :
    m'.instructionComponent = m.instructionComponent := by
  obtain ⟨bs, h, hmem⟩ := h
  dsimp only [waitForL1] at h
  split at h
  · cases h
    rw [List.mem_singleton.mp hmem]
  · obtain ⟨⟨cache, report⟩, _, h⟩ := bind_eq_ok.mp h
    obtain ⟨⟨l2cache, _⟩, _, h⟩ := bind_eq_ok.mp h
    exact (instructionComponent_of_afterL1Update ⟨bs, h, hmem⟩).trans rfl

/-- What serves data accesses leaves the instruction component alone. -/
theorem instructionComponent_of_checkDataPart (h : Leads (checkDataPart opts C B) m m') :
    m'.instructionComponent = m.instructionComponent := by
  obtain ⟨bs, h, hmem⟩ := h
  unfold checkDataPart at h
  split at h
  · cases h
    rw [List.mem_singleton.mp hmem]
  split_ifs at h
  · obtain ⟨_, _, h⟩ := bind_eq_ok.mp h
    obtain ⟨_, _, h⟩ := bind_eq_ok.mp h
    obtain ⟨⟨res, memory⟩, _, h⟩ := bind_eq_ok.mp h
    cases h
    rw [List.mem_singleton.mp hmem]
  split at h
  · obtain ⟨_, _, h⟩ := bind_eq_ok.mp h
    cases h
    rw [List.mem_singleton.mp hmem]
  · obtain ⟨_, _, h⟩ := bind_eq_ok.mp h
    split_ifs at h
    · exact instructionComponent_of_waitForL2 ⟨bs, h, hmem⟩
    · exact instructionComponent_of_waitForL1 ⟨bs, h, hmem⟩
  · obtain ⟨_, _, h⟩ := bind_eq_ok.mp h
    split_ifs at h
    · cases h
      rw [List.mem_singleton.mp hmem]
      rfl
    · cases h
      rw [List.mem_singleton.mp hmem]
      split_ifs <;> rfl
  · cases h

theorem instructionComponent_of_processDataCacheAccess
    (h : processDataCacheAccess opts C B m acc cl = .ok m') :
    m'.instructionComponent = m.instructionComponent := by
  simp only [processDataCacheAccess] at h
  split_ifs at h
  · cases h
    rfl
  · cases h
    rfl
  · obtain ⟨_, _, h⟩ := bind_eq_ok.mp h
    obtain ⟨⟨res, memory⟩, _, h⟩ := bind_eq_ok.mp h
    cases res with
    | none => cases h
    | some id =>
      cases h
      rfl
  · obtain ⟨⟨res, memory⟩, _, h⟩ := bind_eq_ok.mp h
    cases h
    rfl

theorem instructionComponent_of_mystartDataAccess (h : Leads (mystartDataAccess opts C B) m m') :
    m'.instructionComponent = m.instructionComponent := by
  obtain ⟨bs, h, hmem⟩ := h
  unfold mystartDataAccess at h
  split at h
  · obtain ⟨L1, _, h⟩ := bind_eq_ok.mp h
    obtain ⟨L2, _, h⟩ := bind_eq_ok.mp h
    obtain ⟨cl, _, bs', hbs', hmem'⟩ := (mem_forEach h).mp hmem
    obtain ⟨m₁, hm₁, hbs'⟩ := bind_eq_ok.mp hbs'
    cases hbs'
    rw [List.mem_singleton.mp hmem', instructionComponent_of_processDataCacheAccess hm₁]
  · cases h
    rw [List.mem_singleton.mp hmem]

end Data

section Instructions

theorem waitingQueue_of_checkInstructionPart (h : Leads (checkInstructionPart opts C B) m m') :
    m'.instructionComponent.waitingQueue = m.instructionComponent.waitingQueue := by
  obtain ⟨bs, h, hmem⟩ := h
  unfold checkInstructionPart at h
  split at h
  · cases h
    rw [List.mem_singleton.mp hmem]
  split_ifs at h
  · cases h
    rw [List.mem_singleton.mp hmem]
    rfl
  · obtain ⟨m₁, hm₁, h⟩ := bind_eq_ok.mp h
    cases h
    rw [List.mem_singleton.mp hmem]
    dsimp only [waitForInstrL2] at hm₁
    split_ifs at hm₁
    · obtain ⟨_, _, hm₁⟩ := bind_eq_ok.mp hm₁
      cases hm₁
      rfl
    · cases hm₁
      rfl
  · obtain ⟨m₁, hm₁, h⟩ := bind_eq_ok.mp h
    cases h
    rw [List.mem_singleton.mp hmem]
    dsimp only [waitForInstrL1] at hm₁
    split at hm₁
    · obtain ⟨_, _, hm₁⟩ := bind_eq_ok.mp hm₁
      obtain ⟨_, _, hm₁⟩ := bind_eq_ok.mp hm₁
      cases hm₁
      rfl
    · cases hm₁
      rfl

theorem waitingQueue_of_missInstr {cache : AbstractCache κ} {persistence : Bool} {access : Access}
    {c c' : MemoryComponent κ} (h : missInstr opts cache persistence access c = .ok c') :
    c'.waitingQueue = c.waitingQueue := by
  unfold missInstr at h
  split_ifs at h
  · obtain ⟨_, _, h⟩ := bind_eq_ok.mp h
    cases h
    rfl
  · cases h
    rfl

theorem waitingQueue_of_processInstrCacheAccess
    (h : processInstrCacheAccess opts C B m acc cl = .ok m') :
    m'.instructionComponent.waitingQueue = m.instructionComponent.waitingQueue := by
  unfold processInstrCacheAccess at h
  split_ifs at h
  · cases h
    rfl
  · obtain ⟨c, hc, h⟩ := bind_eq_ok.mp h
    cases h
    exact (waitingQueue_of_missInstr hc).trans rfl
  · obtain ⟨l2, _, h⟩ := bind_eq_ok.mp h
    obtain ⟨c, hc, h⟩ := bind_eq_ok.mp h
    obtain ⟨⟨res, memory⟩, _, h⟩ := bind_eq_ok.mp h
    cases res with
    | none => cases h
    | some id =>
      cases h
      exact (waitingQueue_of_missInstr hc).trans rfl
  · obtain ⟨l2, _, h⟩ := bind_eq_ok.mp h
    obtain ⟨c, hc, h⟩ := bind_eq_ok.mp h
    obtain ⟨⟨res, memory⟩, _, h⟩ := bind_eq_ok.mp h
    cases hc
    cases res with
    | none => cases h
    | some id =>
      cases h
      rfl

theorem waitingQueue_of_mystartInstructionAccess
    (h : Leads (mystartInstructionAccess opts C B) m m') :
    m'.instructionComponent.waitingQueue ⊆ m.instructionComponent.waitingQueue := by
  obtain ⟨bs, h, hmem⟩ := h
  unfold mystartInstructionAccess at h
  split at h
  · obtain ⟨L1, _, h⟩ := bind_eq_ok.mp h
    obtain ⟨L2, _, h⟩ := bind_eq_ok.mp h
    obtain ⟨cl, _, bs', hbs', hmem'⟩ := (mem_forEach h).mp hmem
    obtain ⟨m₁, hm₁, hbs'⟩ := bind_eq_ok.mp hbs'
    cases hbs'
    rw [List.mem_singleton.mp hmem', waitingQueue_of_processInstrCacheAccess hm₁]
    exact List.tail_subset _
  · cases h
    rw [List.mem_singleton.mp hmem]
    exact List.Subset.refl _

end Instructions

/-- A cycle takes instruction accesses from the queue only. -/
theorem waitingQueue_of_cycle {pending : Bool} (h : Leads (cycle opts C B pending) m m') :
    m'.instructionComponent.waitingQueue ⊆ m.instructionComponent.waitingQueue := by
  obtain ⟨bs, h, hmem⟩ := h
  obtain ⟨starts, hstarts, h⟩ := bind_eq_ok.mp h
  obtain ⟨m₁, hm₁, bs₁, h, hmem⟩ := (mem_forEach h).mp hmem
  obtain ⟨datas, hdatas, h⟩ := bind_eq_ok.mp h
  obtain ⟨m₂, hm₂, bs₂, h, hmem⟩ := (mem_forEach h).mp hmem
  obtain ⟨memories, hmemories, h⟩ := bind_eq_ok.mp h
  obtain ⟨memory, _, bs₃, h, hmem⟩ := (mem_forEach h).mp hmem
  have hstart := waitingQueue_of_mystartInstructionAccess ⟨starts, hstarts, hm₁⟩
  have hdata := instructionComponent_of_mystartDataAccess ⟨datas, hdatas, hm₂⟩
  dsimp only [afterMemoryCycle] at h
  split at h
  · cases h
    rw [List.mem_singleton.mp hmem, hdata]
    exact hstart
  · obtain ⟨instrs, hinstrs, h⟩ := bind_eq_ok.mp h
    obtain ⟨m₃, hm₃, hcheck⟩ := (mem_forEach h).mp hmem
    rw [instructionComponent_of_checkDataPart hcheck,
      waitingQueue_of_checkInstructionPart ⟨instrs, hinstrs, hm₃⟩, hdata]
    exact hstart

theorem preciseFetches_of_reachable (h : Reachable opts C B m) : PreciseFetches m := by
  induction h with
  | new =>
    intro access haccess
    cases haccess
  | accessInstr _ addr numWords ih =>
    intro access haccess
    obtain hold | hnew := List.mem_append.mp haccess
    · exact ih access (List.mem_of_mem_tail hold)
    · rw [List.mem_singleton.mp hnew]
      exact AbstractAddress.isPrecise_ofUnsigned addr
  | @accessData m _ addr load_store numWords ih =>
    unfold accessData
    split_ifs <;> exact ih
  | finishedInstrAccess _ id ih =>
    unfold finishedInstrAccess
    split_ifs <;> exact ih
  | finishedDataAccess _ id ih =>
    unfold finishedDataAccess
    split_ifs <;> exact ih
  | enterScope _ _ ih => exact ih
  | leaveScope _ _ ih => exact ih
  | resetLocalMetrics _ ih => exact ih
  | cycle _ pending hm' ih => exact fun access haccess => ih access (waitingQueue_of_cycle hm' haccess)
  | fastForward _ hm' ih =>
    obtain ⟨bs, h, hmem⟩ := hm'
    unfold fastForward at h
    split_ifs at h
    · obtain ⟨forwarded, _, h⟩ := bind_eq_ok.mp h
      cases h
      obtain ⟨memory, _, rfl⟩ := List.mem_map.mp hmem
      exact ih
    · cases h
      rw [List.mem_singleton.mp hmem]
      exact ih
  | join _ _ hm'' ih _ =>
    obtain ⟨_, _, h⟩ := bind_eq_ok.mp hm''
    obtain ⟨_, _, h⟩ := bind_eq_ok.mp h
    obtain ⟨c, hc, h⟩ := bind_eq_ok.mp h
    obtain ⟨_, _, h⟩ := bind_eq_ok.mp h
    obtain ⟨_, _, h⟩ := bind_eq_ok.mp h
    cases h
    obtain ⟨_, _, hc⟩ := bind_eq_ok.mp hc
    obtain ⟨_, _, hc⟩ := bind_eq_ok.mp hc
    obtain ⟨_, _, hc⟩ := bind_eq_ok.mp hc
    obtain ⟨_, _, hc⟩ := bind_eq_ok.mp hc
    cases hc
    exact ih

end JJYSeparateCachesMemoryTopology

end Llvmta
