import Llvmta.Memory.DirtinessAnalysis
import Llvmta.Memory.FixedLatencyCyclingMemory
import Llvmta.Memory.TopologyDataUpdates

/-!
# Progress of data accesses

An ongoing data access waits for a load, for the second level, for the first level,
perhaps for a write-back to the second level, and for a store, in this order. With the
time that is left in a level this is a measure that every check of the data part
decreases. The exception is the write-back to the second level: the time that is left
there is set anew whenever the data part is checked.
-/

namespace Llvmta

open Checked

namespace JJYSeparateCachesMemoryTopology

/-! ## What is said about a run -/

section Definitions

variable (opts : TopologyOptions) {κ μ : Type} (C : TopologyCaches κ)
  (B : MemoryTopologyInterface μ)

/-- A function of the phase, the identifiers in the background memory and in the second
level, and the times that are left in both levels. -/
abbrev AccessMeasure := AccessPhase → ℕ → ℕ → ℕ → ℕ → ℕ

def AccessMeasure.of (f : AccessMeasure) (acc : OngoingAccess) : ℕ :=
  f acc.phase acc.bgMemAccessId acc.bgl2AccessId acc.l1timeBlocked acc.l2timeBlocked

/-- The background memory neither stalls the access nor has it still pending. -/
def BackgroundReady (m : JJYSeparateCachesMemoryTopology κ μ) (acc : OngoingAccess) : Prop :=
  acc.bgmemStall = false ∧
    match acc.phase with
    | .waitForLOAD => (B.finishedDataAccess m.memory acc.bgMemAccessId).1 = true
    | .waitForSTORE => opts.unblockStores = true ∨
        (B.finishedDataAccess m.memory acc.bgMemAccessId).1 = true
    | _ => True

/-- A check of the data part with the result `m'` decreases the measure of an access that
goes on, if the background memory is ready. -/
def DecreasesAt (f : AccessMeasure) (m m' : JJYSeparateCachesMemoryTopology κ μ) : Prop :=
  ∀ acc acc', m.dataComponent.ongoingAccess = some acc → BackgroundReady opts B m acc →
    m'.dataComponent.ongoingAccess = some acc' → f.of acc' < f.of acc

/-- The data access waits for the caches. -/
def WaitsForCache (m : JJYSeparateCachesMemoryTopology κ μ) : Prop :=
  ∃ acc, m.dataComponent.ongoingAccess = some acc ∧ acc.phase = .waitForCACHE

/-- The access waits for the caches under the identifier of a write-back to the second
level, which takes more than a cycle. -/
def Rearmed (m : JJYSeparateCachesMemoryTopology κ μ) : Prop :=
  2 ≤ C.l2Cache.getHitLatency ∧ ∃ acc, m.dataComponent.ongoingAccess = some acc ∧
    acc.phase = .waitForCACHE ∧ acc.bgl2AccessId = writebackId

instance (m : JJYSeparateCachesMemoryTopology κ μ) : Decidable (Rearmed C m) :=
  decidable_of_iff (2 ≤ C.l2Cache.getHitLatency ∧ (m.dataComponent.ongoingAccess.any fun acc =>
    acc.phase == .waitForCACHE && acc.bgl2AccessId == writebackId) = true) (by
      simp [Rearmed, Option.any_eq_true])

/-- What happens to a topology until its data part is checked the next time. In a join it
is the topology whose identifiers are kept. -/
inductive UntilDataPart : JJYSeparateCachesMemoryTopology κ μ →
    JJYSeparateCachesMemoryTopology κ μ → Prop
  | check {m m₁} (potentialDataMissesPending : Bool)
    (h : BeforeDataPart opts C B potentialDataMissesPending m m₁) : UntilDataPart m m₁
  | accessInstr {m m₁} (addr numWords : ℕ)
    (h : UntilDataPart (m.accessInstr addr numWords).2 m₁) : UntilDataPart m m₁
  | accessData {m m₁} (addr : AbstractAddress) (load_store : AccessType) (numWords : ℕ)
    (h : UntilDataPart (m.accessData addr load_store numWords).2 m₁) : UntilDataPart m m₁
  | finishedInstrAccess {m m₁} (id : ℕ) (h : UntilDataPart (m.finishedInstrAccess id).2 m₁) :
    UntilDataPart m m₁
  | finishedDataAccess {m m₁} (id : ℕ) (h : UntilDataPart (m.finishedDataAccess id).2 m₁) :
    UntilDataPart m m₁
  | enterScope {m m₁} (scope : PersistenceScope) (h : UntilDataPart (m.enterScope C scope) m₁) :
    UntilDataPart m m₁
  | leaveScope {m m₁} (scope : PersistenceScope) (h : UntilDataPart (m.leaveScope C scope) m₁) :
    UntilDataPart m m₁
  | resetLocalMetrics {m m₁} (h : UntilDataPart (m.resetLocalMetrics B) m₁) : UntilDataPart m m₁
  | stall {m m₁ m₂ m₃ memory} (potentialDataMissesPending : Bool)
    (hinstr : Leads (mystartInstructionAccess opts C B) (clearEvents m) m₂)
    (hdata : Leads (mystartDataAccess opts C B) m₂ m₃)
    (hcycle : Leads (B.cycle potentialDataMissesPending) m₃.memory memory)
    (hstall : B.shouldPipelineStall memory = true)
    (h : UntilDataPart { m₃ with memory } m₁) : UntilDataPart m m₁
  | fastForward {m m₁ m₂} (hm₂ : Leads (fastForward opts B) m m₂) (h : UntilDataPart m₂ m₁) :
    UntilDataPart m m₁
  | join {m m₁ m₂ m₃} (hm₃ : Reachable opts C B m₃) (hm₂ : join C B m m₃ = .ok m₂)
    (h : UntilDataPart m₂ m₁) : UntilDataPart m m₁

/-- A run in which the data part is checked infinitely often: `s` and `t` are the topologies
before and after each check. -/
structure DataPartRun (s t : ℕ → JJYSeparateCachesMemoryTopology κ μ) : Prop where
  start : ∃ m, Reachable opts C B m ∧ UntilDataPart opts C B m (s 0)
  check : ∀ i, Leads (checkDataPart opts C B) (s i) (t i)
  next : ∀ i, UntilDataPart opts C B (t i) (s (i + 1))

/-- One measure decreases at every check, and no access waits for the caches forever: it
ends, or waits for something else. -/
def MakesProgress (s t : ℕ → JJYSeparateCachesMemoryTopology κ μ) : Prop :=
  (∃ f : AccessMeasure, ∀ i, DecreasesAt opts B f (s i) (t i)) ∧
    ∀ i, ∃ j ≥ i, ¬ WaitsForCache (s j) ∨ (t j).dataComponent.ongoingAccess = none

/-- What an access still has to do: a store, a write-back to the second level, the first
level, the second level, a load. -/
def remaining : AccessMeasure := fun phase _ bgl2AccessId l1timeBlocked l2timeBlocked =>
  match phase with
  | .waitForLOAD => 4 + C.instrCache.getHitLatency + C.l2Cache.getHitLatency
  | .waitForCACHE =>
    if bgl2AccessId = writebackId then 1
    else if bgl2AccessId = 0 then 2 + l1timeBlocked
    else 3 + C.instrCache.getHitLatency + l2timeBlocked
  | _ => 0

end Definitions

section Steps

variable {opts : TopologyOptions} {κ μ : Type} {C : TopologyCaches κ}
  {B : MemoryTopologyInterface μ} {acc acc' : OngoingAccess} {report : Option UpdateReport}
  {m m' m₁ : JJYSeparateCachesMemoryTopology κ μ}

/-! ## A check of the data part -/

theorem ongoingAccess_of_splitDirtified (h : m' ∈ splitDirtified C m) :
    m'.dataComponent.ongoingAccess = m.dataComponent.ongoingAccess := by
  unfold splitDirtified at h
  split_ifs at h
  · rcases List.mem_pair.mp h with rfl | rfl <;> rfl
  · rw [List.mem_singleton.mp h]

theorem writeThrough_store (h : writeThrough B m acc = .ok m')
    (hacc' : m'.dataComponent.ongoingAccess = some acc') : acc'.phase = .waitForSTORE := by
  obtain ⟨⟨res, memory⟩, _, h⟩ := bind_eq_ok.mp h
  cases h
  cases hacc'
  rfl

/-- After the second level an access waits for a store or for the first level. -/
theorem of_afterL2Update_ongoing (h : Leads (afterL2Update opts C B · acc report) m m')
    (hacc' : m'.dataComponent.ongoingAccess = some acc') :
    acc'.phase = .waitForSTORE ∨ acc.bgl2AccessId ≠ writebackId ∧
      acc' = { acc with l1timeBlocked := C.instrCache.getHitLatency, bgl2AccessId := 0 } := by
  obtain ⟨bs, h, hmem⟩ := h
  simp only [afterL2Update] at h
  split at h
  · obtain ⟨m₁, hm₁, h⟩ := bind_eq_ok.mp h
    cases h
    rw [ongoingAccess_of_splitDirtified hmem] at hacc'
    exact .inl (writeThrough_store hm₁ hacc')
  split at h
  · obtain ⟨⟨res, memory⟩, _, h⟩ := bind_eq_ok.mp h
    cases res with
    | none => cases h
    | some id =>
      cases h
      rcases List.mem_cons.mp hmem with rfl | hmem
      · cases hacc'
      · rw [ongoingAccess_of_splitDirtified hmem] at hacc'
        cases hacc'
        exact .inl rfl
  · split_ifs at h with hid
    · cases h
      rw [ongoingAccess_of_splitDirtified hmem] at hacc'
      cases hacc'
      exact .inr ⟨hid, rfl⟩
    · cases h
      rw [ongoingAccess_of_splitDirtified hmem] at hacc'
      cases hacc'

/-- The time that is left in the second level when a cycle has passed there. -/
def l2timeLeft (C : TopologyCaches κ) (acc : OngoingAccess) : ℕ :=
  (if acc.bgl2AccessId = writebackId then C.l2Cache.getHitLatency else acc.l2timeBlocked) - 1

theorem waitForL2_eq (m : JJYSeparateCachesMemoryTopology κ μ) (acc : OngoingAccess) :
    waitForL2 opts C B m acc =
      let acc₁ := { acc with l2timeBlocked := l2timeLeft C acc }
      let m₁ := { m with dataComponent := m.dataComponent.setOngoing acc₁ }
      if l2timeLeft C acc = 0 then updateL2 opts C B m₁ acc₁ else .ok [m₁] := rfl

theorem of_waitForL2_ongoing (h : Leads (waitForL2 opts C B · acc) m m')
    (hacc' : m'.dataComponent.ongoingAccess = some acc') :
    (l2timeLeft C acc ≠ 0 ∧ acc' = { acc with l2timeBlocked := l2timeLeft C acc }) ∨
      l2timeLeft C acc = 0 ∧ (acc'.phase = .waitForSTORE ∨ acc.bgl2AccessId ≠ writebackId ∧
        acc'.phase = acc.phase ∧ acc'.bgl2AccessId = 0 ∧
          acc'.l1timeBlocked = C.instrCache.getHitLatency) := by
  obtain ⟨bs, h, hmem⟩ := h
  simp only [waitForL2_eq] at h
  split_ifs at h with htime
  · obtain ⟨⟨cache, report⟩, _, h⟩ := bind_eq_ok.mp h
    rcases of_afterL2Update_ongoing ⟨bs, h, hmem⟩ hacc' with hstore | ⟨hid, rfl⟩
    · exact .inr ⟨htime, .inl hstore⟩
    · exact .inr ⟨htime, .inr ⟨hid, rfl, rfl, rfl⟩⟩
  · cases h
    rw [List.mem_singleton.mp hmem] at hacc'
    cases hacc'
    exact .inl ⟨htime, rfl⟩

/-- After the first level an access waits for a store or for a write-back. -/
theorem of_waitForL1_ongoing (h : Leads (waitForL1 opts C B · acc) m m')
    (hacc' : m'.dataComponent.ongoingAccess = some acc') :
    (0 < acc.l1timeBlocked - 1 ∧ acc' = { acc with l1timeBlocked := acc.l1timeBlocked - 1 }) ∨
      acc'.phase = .waitForSTORE ∨ acc'.phase = acc.phase ∧ acc'.bgl2AccessId = writebackId := by
  obtain ⟨bs, h, hmem⟩ := h
  simp only [waitForL1] at h
  split at h
  · next htime =>
    cases h
    rw [List.mem_singleton.mp hmem] at hacc'
    cases hacc'
    exact .inl ⟨htime, rfl⟩
  · right
    obtain ⟨⟨cache, report⟩, _, h⟩ := bind_eq_ok.mp h
    obtain ⟨⟨l2cache, _⟩, _, h⟩ := bind_eq_ok.mp h
    simp only [afterL1Update] at h
    split at h
    · obtain ⟨m₁, hm₁, h⟩ := bind_eq_ok.mp h
      cases h
      rw [ongoingAccess_of_splitDirtified hmem] at hacc'
      exact .inl (writeThrough_store hm₁ hacc')
    split at h
    · cases h
      rcases List.mem_cons.mp hmem with rfl | hmem
      · cases hacc'
      · rw [ongoingAccess_of_splitDirtified hmem] at hacc'
        cases hacc'
        exact .inr ⟨rfl, rfl⟩
    · cases h
      rw [ongoingAccess_of_splitDirtified hmem] at hacc'
      cases hacc'

/-- A check of the data part while the access waits for the caches. -/
theorem checkDataPart_cache (hacc : m.dataComponent.ongoingAccess = some acc)
    (hphase : acc.phase = .waitForCACHE) (h : Leads (checkDataPart opts C B) m m') :
    acc.bgmemStall = false ∧
      if acc.bgl2AccessId ≠ 0 then Leads (waitForL2 opts C B · acc) m m'
      else Leads (waitForL1 opts C B · acc) m m' := by
  obtain ⟨bs, h, hmem⟩ := h
  simp only [checkDataPart, hacc] at h
  split at h
  · obtain ⟨_, _, h⟩ := bind_eq_ok.mp h
    obtain ⟨_, hassert, _⟩ := bind_eq_ok.mp h
    simp [assertThat, hphase] at hassert
  next hstall =>
  refine ⟨Bool.eq_false_iff.mpr hstall, ?_⟩
  simp only [hphase] at h
  obtain ⟨_, _, h⟩ := bind_eq_ok.mp h
  by_cases hid : acc.bgl2AccessId ≠ 0
  · rw [if_pos hid] at h ⊢
    exact ⟨bs, h, hmem⟩
  · rw [if_neg hid] at h ⊢
    exact ⟨bs, h, hmem⟩

/-- A check of the data part while the access waits for a load that is there. -/
theorem checkDataPart_load (hacc : m.dataComponent.ongoingAccess = some acc)
    (hphase : acc.phase = .waitForLOAD) (hready : BackgroundReady opts B m acc)
    (h : Leads (checkDataPart opts C B) m m') (hacc' : m'.dataComponent.ongoingAccess = some acc') :
    acc'.phase = .waitForCACHE ∧ acc'.bgl2AccessId = acc.bgMemAccessId ∧
      acc.bgMemAccessId ≠ 0 ∧ acc'.l2timeBlocked = C.l2Cache.getHitLatency := by
  obtain ⟨bs, h, hmem⟩ := h
  obtain ⟨hstall, hfinished⟩ := hready
  simp only [hphase] at hfinished
  simp only [checkDataPart, hacc, hstall, hphase, Bool.false_eq_true, if_false] at h
  obtain ⟨_, hassert, h⟩ := bind_eq_ok.mp h
  have hid := of_assertThat hassert
  simp only [hfinished, if_true] at h
  cases h
  rw [List.mem_singleton.mp hmem] at hacc'
  cases hacc'
  exact ⟨rfl, rfl, by simpa using hid, rfl⟩

/-- An access whose store is done ends. -/
theorem checkDataPart_store (hacc : m.dataComponent.ongoingAccess = some acc)
    (hphase : acc.phase = .waitForSTORE) (hready : BackgroundReady opts B m acc)
    (h : Leads (checkDataPart opts C B) m m') : m'.dataComponent.ongoingAccess = none := by
  obtain ⟨bs, h, hmem⟩ := h
  obtain ⟨hstall, hfinished⟩ := hready
  simp only [hphase] at hfinished
  simp only [checkDataPart, hacc, hstall, hphase, Bool.false_eq_true, if_false] at h
  obtain ⟨_, _, h⟩ := bind_eq_ok.mp h
  split at h
  · cases h
    rw [List.mem_singleton.mp hmem]
    rfl
  · next hblocking =>
    rw [or_iff_right hblocking] at hfinished
    simp only [hfinished, if_true] at h
    cases h
    rw [List.mem_singleton.mp hmem]
    rfl

/-- Unless the access is re-armed, a check decreases what remains to be done. -/
theorem remaining_decreases (hm : ¬ Rearmed C m) (h : Leads (checkDataPart opts C B) m m') :
    DecreasesAt opts B (remaining C) m m' := by
  intro acc acc' hacc hready hacc'
  unfold AccessMeasure.of
  cases hphase : acc.phase with
  | waitForSTART =>
    obtain ⟨bs, h, _⟩ := h
    simp [checkDataPart, hacc, hready.1, hphase] at h
  | waitForLOAD =>
    obtain ⟨hphase', hid', hid, htime'⟩ := checkDataPart_load hacc hphase hready h hacc'
    simp only [remaining, hphase', hid', hid, htime', if_false]
    split_ifs <;> omega
  | waitForCACHE =>
    obtain ⟨_, h⟩ := checkDataPart_cache hacc hphase h
    split_ifs at h with hid
    · rcases of_waitForL2_ongoing h hacc' with
        ⟨htime, rfl⟩ | ⟨_, hstore | ⟨hwriteback, hphase', hid', htime'⟩⟩
      · have hnormal : acc.bgl2AccessId ≠ writebackId := by
          intro hwriteback
          refine hm ⟨?_, acc, hacc, hphase, hwriteback⟩
          simp only [l2timeLeft, hwriteback, if_true] at htime
          omega
        simp only [l2timeLeft, hnormal, if_false] at htime
        simp only [remaining, hphase, hnormal, hid, if_false, l2timeLeft]
        omega
      · simp only [remaining, hstore]
        split_ifs <;> omega
      · simp only [remaining, hphase, hphase', hid', htime', hwriteback, hid, if_false]
        split_ifs <;> omega
    · rw [not_not] at hid
      have hwriteback : (0 : ℕ) ≠ writebackId := by decide
      rcases of_waitForL1_ongoing h hacc' with ⟨htime, rfl⟩ | hstore | ⟨hphase', hid'⟩
      · simp only [remaining, hphase, hid, hwriteback, if_false, if_true]
        omega
      · simp only [remaining, hstore, hid, hwriteback, if_false, if_true]
        omega
      · rw [hphase] at hphase'
        simp only [remaining, hphase', hid, hid', hwriteback, if_false, if_true]
        omega
  | waitForSTORE =>
    cases (checkDataPart_store hacc hphase hready h).symm.trans hacc'

/-- A re-armed access is as it was after the check, up to the time that is left. -/
theorem rearmed_check (hlatency : 2 ≤ C.l2Cache.getHitLatency)
    (hacc : m.dataComponent.ongoingAccess = some acc) (hphase : acc.phase = .waitForCACHE)
    (hid : acc.bgl2AccessId = writebackId) (h : Leads (checkDataPart opts C B) m m') :
    BackgroundReady opts B m acc ∧ m'.dataComponent.ongoingAccess =
      some { acc with l2timeBlocked := C.l2Cache.getHitLatency - 1 } := by
  obtain ⟨hstall, h⟩ := checkDataPart_cache hacc hphase h
  have hne : acc.bgl2AccessId ≠ 0 := by
    rw [hid]
    decide
  rw [if_pos hne] at h
  have htime : l2timeLeft C acc = C.l2Cache.getHitLatency - 1 := by rw [l2timeLeft, if_pos hid]
  have hleft : C.l2Cache.getHitLatency - 1 ≠ 0 := by omega
  obtain ⟨bs, h, hmem⟩ := h
  simp only [waitForL2_eq, htime, hleft, if_false] at h
  cases h
  rw [List.mem_singleton.mp hmem]
  refine ⟨⟨hstall, ?_⟩, rfl⟩
  simp only [hphase]

/-! ## Between the checks -/

/-- An ongoing data access is not touched before its data part is checked. -/
theorem ongoingAccess_of_untilDataPart (h : UntilDataPart opts C B m m₁)
    (hacc : m.dataComponent.ongoingAccess = some acc) :
    m₁.dataComponent.ongoingAccess = some acc := by
  have hstart {m m₂ m₃ : JJYSeparateCachesMemoryTopology κ μ}
      (hacc : m.dataComponent.ongoingAccess = some acc)
      (hinstr : Leads (mystartInstructionAccess opts C B) (clearEvents m) m₂)
      (hdata : Leads (mystartDataAccess opts C B) m₂ m₃) :
      m₃.dataComponent.ongoingAccess = some acc := by
    have hacc₂ : m₂.dataComponent.ongoingAccess = some acc := by
      rw [dataComponent_of_mystartInstructionAccess hinstr]
      exact hacc
    obtain ⟨bs, hdata, hmem⟩ := hdata
    simp only [mystartDataAccess, hacc₂] at hdata
    cases hdata
    rw [List.mem_singleton.mp hmem, hacc₂]
  induction h with
  | check _ hbefore =>
    obtain ⟨m₂, m₃, memory, hinstr, hdata, _, _, hcheck⟩ := hbefore
    have hkept := hstart hacc hinstr hdata
    rw [dataComponent_of_checkInstructionPart hcheck]
    exact hkept
  | accessInstr _ _ _ ih => exact ih hacc
  | @accessData m _ addr load_store numWords _ ih =>
    apply ih
    unfold accessData
    split_ifs <;> exact hacc
  | @finishedInstrAccess m _ id _ ih =>
    apply ih
    unfold finishedInstrAccess
    split_ifs <;> exact hacc
  | @finishedDataAccess m _ id _ ih =>
    apply ih
    unfold finishedDataAccess
    split_ifs <;> exact hacc
  | enterScope _ _ ih => exact ih hacc
  | leaveScope _ _ ih => exact ih hacc
  | resetLocalMetrics _ ih => exact ih hacc
  | stall _ hinstr hdata _ _ _ ih =>
    have hkept := hstart hacc hinstr hdata
    exact ih hkept
  | fastForward hm₂ _ ih =>
    apply ih
    obtain ⟨bs, h, hmem⟩ := hm₂
    unfold fastForward at h
    split_ifs at h
    · obtain ⟨forwarded, _, h⟩ := bind_eq_ok.mp h
      cases h
      obtain ⟨memory, _, rfl⟩ := List.mem_map.mp hmem
      exact hacc
    · cases h
      rw [List.mem_singleton.mp hmem]
      exact hacc
  | join _ hm₂ _ ih =>
    apply ih
    obtain ⟨_, _, hm₂⟩ := bind_eq_ok.mp hm₂
    obtain ⟨_, _, hm₂⟩ := bind_eq_ok.mp hm₂
    obtain ⟨_, _, hm₂⟩ := bind_eq_ok.mp hm₂
    obtain ⟨c, hc, hm₂⟩ := bind_eq_ok.mp hm₂
    obtain ⟨_, _, hm₂⟩ := bind_eq_ok.mp hm₂
    cases hm₂
    obtain ⟨_, _, hc⟩ := bind_eq_ok.mp hc
    obtain ⟨_, _, hc⟩ := bind_eq_ok.mp hc
    obtain ⟨_, _, hc⟩ := bind_eq_ok.mp hc
    obtain ⟨_, _, hc⟩ := bind_eq_ok.mp hc
    cases hc
    exact hacc

/-! ## Runs -/

variable {s t : ℕ → JJYSeparateCachesMemoryTopology κ μ}

/-- What goes on after a check is what the next check finds. -/
theorem DataPartRun.ongoing_next (hrun : DataPartRun opts C B s t) (i : ℕ)
    (hacc : (t i).dataComponent.ongoingAccess = some acc) :
    (s (i + 1)).dataComponent.ongoingAccess = some acc :=
  ongoingAccess_of_untilDataPart (hrun.next i) hacc

/-- A measure that decreases at every check bounds the time an access waits for the caches. -/
theorem DataPartRun.leavesCache (hrun : DataPartRun opts C B s t) {f : AccessMeasure}
    (hf : ∀ i, DecreasesAt opts B f (s i) (t i)) (i : ℕ) :
    ∃ j ≥ i, ¬ WaitsForCache (s j) ∨ (t j).dataComponent.ongoingAccess = none := by
  by_contra hstays
  push Not at hstays
  have hnever (n : ℕ) : ∀ j ≥ i, ∀ acc, (s j).dataComponent.ongoingAccess = some acc →
      f.of acc ≠ n := by
    induction n using Nat.strong_induction_on with
    | _ n ih =>
      intro j hj acc hacc hn
      obtain ⟨⟨acc₁, hacc₁, hphase⟩, hgoes⟩ := hstays j hj
      obtain rfl : acc = acc₁ := Option.some.inj (hacc.symm.trans hacc₁)
      obtain ⟨acc', hacc'⟩ := Option.ne_none_iff_exists'.mp hgoes
      have hready : BackgroundReady opts B (s j) acc := by
        refine ⟨(checkDataPart_cache hacc hphase (hrun.check j)).1, ?_⟩
        simp only [hphase]
      have hlt := hf j acc acc' hacc hready hacc'
      rw [hn] at hlt
      exact ih _ hlt (j + 1) (by omega) acc' (hrun.ongoing_next j hacc') rfl
  obtain ⟨⟨acc, hacc, _⟩, _⟩ := hstays i le_rfl
  exact hnever _ i le_rfl acc hacc rfl

/-- No measure decreases at both of two checks of which the first finds the access re-armed. -/
theorem DataPartRun.not_decreases (hrun : DataPartRun opts C B s t) {i : ℕ}
    (hrearmed : Rearmed C (s i)) (f : AccessMeasure) :
    ¬ DecreasesAt opts B f (s (i + 1)) (t (i + 1)) := by
  intro hf
  obtain ⟨hlatency, acc, hacc, hphase, hid⟩ := hrearmed
  obtain ⟨_, hacc'⟩ := rearmed_check hlatency hacc hphase hid (hrun.check i)
  have hacc₁ := hrun.ongoing_next i hacc'
  obtain ⟨hready, hacc₂⟩ := rearmed_check hlatency hacc₁ hphase hid (hrun.check (i + 1))
  exact lt_irrefl _ (hf _ _ hacc₁ hready hacc₂)

/-- The data accesses of a run make progress if and only if no check finds the access
re-armed. -/
theorem makesProgress_iff (opts : TopologyOptions) (C : TopologyCaches κ)
    (B : MemoryTopologyInterface μ) (s t : ℕ → JJYSeparateCachesMemoryTopology κ μ)
    (hrun : DataPartRun opts C B s t) : MakesProgress opts B s t ↔ ∀ i, ¬ Rearmed C (s i) := by
  constructor
  · rintro ⟨⟨f, hf⟩, _⟩ i hrearmed
    exact hrun.not_decreases hrearmed f (hf (i + 1))
  · intro h
    have hf (i : ℕ) : DecreasesAt opts B (remaining C) (s i) (t i) :=
      remaining_decreases (h i) (hrun.check i)
    exact ⟨⟨remaining C, hf⟩, hrun.leavesCache hf⟩

end Steps

/-! ## Caches that write back -/

section Example

/-- The must and the may analysis with the dirtiness of the lines, as an analysis of a
cache set. -/
def dirtinessSet (T : CacheTraits) (M : Multicore) (assumeCleanCache : Bool) :
    CacheSetAnalysis DirtinessAnalysis where
  new := DirtinessAnalysis.new T assumeCleanCache
  classify := fun d addr => do
    let cl ← (LruMaxAgeAbstractCache.setAnalysis T M).classify d.must addr
    if cl ≠ .clUnknown then .ok cl else (LruMinAgeAbstractCache.setAnalysis T M).classify d.may addr
  update := fun d addr load_store wantReport assumption => do
    d.update T (← getTagOf T addr) load_store wantReport assumption
  potentialUpdate := fun d addr load_store wantReport =>
    d.potentialUpdate T addr.interval load_store wantReport
  join := DirtinessAnalysis.join T
  equals := fun d d' => d == d'

/-- A write-back cache whose replacement policy is `LRU`, without persistence analysis. -/
def makeDirtinessCache (T : CacheTraits) : AbstractCache (AbstractCacheImpl DirtinessAnalysis) :=
  AbstractCacheImpl.cache T (dirtinessSet T oneCore true)

/-- First-level caches of one line and a second level of two lines with a latency. -/
def writebackCaches (l2latency : ℕ) : TopologyCaches (AbstractCacheImpl DirtinessAnalysis) :=
  ⟨makeDirtinessCache ⟨16, 1, 1, true, true, 1, 1⟩, makeDirtinessCache ⟨16, 1, 1, true, true, 1, 1⟩,
    makeDirtinessCache ⟨16, 2, 1, true, true, 2, l2latency⟩⟩

def refutingOptions : TopologyOptions :=
  ⟨false, false, false, false, false, false, false, true, false, false, false, false, 16, 16⟩

/-- A background memory that is done at once. -/
def immediateMemory : MemoryTopologyInterface (SingleMemoryTopology FixedLatencyCyclingMemory) :=
  SingleMemoryTopology.topology refutingOptions.background
    (FixedLatencyCyclingMemory.fixedLatency ⟨0, 0⟩)

abbrev WritebackTopology := JJYSeparateCachesMemoryTopology (AbstractCacheImpl DirtinessAnalysis)
  (SingleMemoryTopology FixedLatencyCyclingMemory)

def cycleWriteback (l2latency : ℕ) : WritebackTopology → Except Fault (List WritebackTopology) :=
  cycle refutingOptions (writebackCaches l2latency) immediateMemory false

/-- What some cycles lead to after a store has been issued. -/
def storedAlong (l2latency : ℕ) (m : WritebackTopology) (addr : ℕ) (ns : List ℕ) :
    Option WritebackTopology :=
  successorAlong (cycleWriteback l2latency) ns (m.accessData (.ofUnsigned addr) .store 1).2

theorem reachable_storedAlong {l2latency addr : ℕ} {m m' : WritebackTopology} {ns : List ℕ}
    (hm : Reachable refutingOptions (writebackCaches l2latency) immediateMemory m)
    (h : storedAlong l2latency m addr ns = some m') :
    Reachable refutingOptions (writebackCaches l2latency) immediateMemory m' :=
  successorAlong_invariant (fun _ _ hm h => .cycle hm false h) (.accessData hm _ _ _) h

/-- What the first choices lead to before the data part is checked. -/
def firstDataPart {κ μ : Type} (opts : TopologyOptions) (C : TopologyCaches κ)
    (B : MemoryTopologyInterface μ) (m : JJYSeparateCachesMemoryTopology κ μ) :
    Option (JJYSeparateCachesMemoryTopology κ μ) := do
  let m₁ ← successorAlong (mystartInstructionAccess opts C B) [0] (clearEvents m)
  let m₂ ← successorAlong (mystartDataAccess opts C B) [0] m₁
  let memory ← successorAlong (B.cycle false) [0] m₂.memory
  if B.shouldPipelineStall memory then none
  else successorAlong (checkInstructionPart opts C B) [0] { m₂ with memory }

theorem beforeDataPart_of_first {κ μ : Type} {opts : TopologyOptions} {C : TopologyCaches κ}
    {B : MemoryTopologyInterface μ} {m m₁ : JJYSeparateCachesMemoryTopology κ μ}
    (h : firstDataPart opts C B m = some m₁) : BeforeDataPart opts C B false m m₁ := by
  obtain ⟨m₂, hinstr, h⟩ := Option.bind_eq_some_iff.mp h
  obtain ⟨m₃, hdata, h⟩ := Option.bind_eq_some_iff.mp h
  obtain ⟨memory, hcycle, h⟩ := Option.bind_eq_some_iff.mp h
  split_ifs at h with hstall
  exact ⟨m₂, m₃, memory, leads_of_successorAlong hinstr, leads_of_successorAlong hdata,
    leads_of_successorAlong hcycle, Bool.eq_false_iff.mpr hstall, leads_of_successorAlong h⟩

/-- Checks that leave a topology as it is, for ever. -/
theorem dataPartRun_const {κ μ : Type} {opts : TopologyOptions} {C : TopologyCaches κ}
    {B : MemoryTopologyInterface μ} {m : JJYSeparateCachesMemoryTopology κ μ}
    (hm : Reachable opts C B m) (hfirst : firstDataPart opts C B m = some m)
    (hcheck : successorAlong (checkDataPart opts C B) [0] m = some m) :
    DataPartRun opts C B (fun _ => m) fun _ => m :=
  ⟨⟨m, hm, .check false (beforeDataPart_of_first hfirst)⟩,
    fun _ => leads_of_successorAlong hcheck,
    fun _ => .check false (beforeDataPart_of_first hfirst)⟩

/-- Two stores to different lines, and cycles until the second one waits for its
write-back to the second level. -/
def writtenBack (l2latency : ℕ) : Option WritebackTopology := do
  let m ← storedAlong l2latency (new (writebackCaches l2latency) immediateMemory) 64 [0, 0, 0, 0]
  storedAlong l2latency m 128 [0, 0, 0, 1, 0]

/-- A load that hits the line of the first store, before its data part is checked. -/
def hitting : Option WritebackTopology := do
  let m ← storedAlong 2 (new (writebackCaches 2) immediateMemory) 64 [0, 0, 0, 0]
  firstDataPart refutingOptions (writebackCaches 2) immediateMemory
    (m.accessData (.ofUnsigned 64) .load 1).2

def checkFirst (l2latency : ℕ) (m : WritebackTopology) : Option WritebackTopology :=
  successorAlong (checkDataPart refutingOptions (writebackCaches l2latency) immediateMemory) [0] m

/-- A load that hits in the first level ends, and nothing happens afterwards. -/
theorem makesProgress_hit : ∃ s t : ℕ → WritebackTopology,
    (s 0).dataComponent.ongoingAccess.isSome = true ∧
      MakesProgress refutingOptions immediateMemory s t := by
  obtain ⟨m₀, hm₀⟩ : ∃ m₀, storedAlong 2 (new (writebackCaches 2) immediateMemory) 64 [0, 0, 0, 0] =
      some m₀ := Option.isSome_iff_exists.mp (by decide +kernel)
  obtain ⟨m₁, hm₁⟩ : ∃ m₁, hitting = some m₁ := Option.isSome_iff_exists.mp (by decide +kernel)
  obtain ⟨m₂, hm₂⟩ : ∃ m₂, hitting.bind (checkFirst 2) = some m₂ :=
    Option.isSome_iff_exists.mp (by decide +kernel)
  have hfirst : (hitting.bind (checkFirst 2)).bind
      (firstDataPart refutingOptions (writebackCaches 2) immediateMemory) =
      hitting.bind (checkFirst 2) := by decide +kernel
  have hidle : (hitting.bind (checkFirst 2)).bind (checkFirst 2) =
      hitting.bind (checkFirst 2) := by decide +kernel
  have hongoing : (hitting.all fun m => m.dataComponent.ongoingAccess.isSome &&
      !decide (Rearmed (writebackCaches 2) m)) = true := by decide +kernel
  have hnone : ((hitting.bind (checkFirst 2)).all fun m =>
      !decide (Rearmed (writebackCaches 2) m)) = true := by decide +kernel
  rw [hm₂] at hfirst hidle hnone
  rw [hm₁] at hm₂ hongoing
  simp only [Option.bind_some, Option.all_some, Bool.and_eq_true, Bool.not_eq_true',
    decide_eq_false_iff_not] at hfirst hidle hongoing hnone hm₂
  have hstart : BeforeDataPart refutingOptions (writebackCaches 2) immediateMemory false
      (m₀.accessData (.ofUnsigned 64) .load 1).2 m₁ := by
    apply beforeDataPart_of_first
    rw [← hm₁, hitting, hm₀]
    rfl
  refine ⟨fun i => if i = 0 then m₁ else m₂, fun _ => m₂, hongoing.1, ?_⟩
  refine (makesProgress_iff refutingOptions (writebackCaches 2) immediateMemory _ _
    ⟨⟨_, .accessData (reachable_storedAlong .new hm₀) _ _ _, .check false hstart⟩, ?_, ?_⟩).mpr ?_
  · intro i
    split_ifs
    · exact leads_of_successorAlong hm₂
    · exact leads_of_successorAlong hidle
  · intro i
    exact .check false (beforeDataPart_of_first hfirst)
  · intro i
    split_ifs
    · exact hongoing.2
    · exact hnone

/-! ## Identifiers that wrap around -/

/-- Write-through caches of one line, with two cycles in the second level. -/
def throughCaches :
    TopologyCaches (AbstractCacheImpl (LruMaxAgeAbstractCache × LruMinAgeAbstractCache)) :=
  ⟨makeOptionsCache (oneLine 1) oneCore, makeOptionsCache (oneLine 1) oneCore,
    makeOptionsCache ⟨16, 1, 1, false, true, 2, 2⟩ oneCore⟩

abbrev ThroughTopology := JJYSeparateCachesMemoryTopology
  (AbstractCacheImpl (LruMaxAgeAbstractCache × LruMinAgeAbstractCache))
  (SingleMemoryTopology FixedLatencyCyclingMemory)

/-- The fetch with an identifier waits, and the next access gets the next identifier. -/
def afterFetch (id : ℕ) : ThroughTopology :=
  let m : ThroughTopology := new throughCaches immediateMemory
  { m with
    instructionComponent := { m.instructionComponent with
      waitingQueue := [⟨id, .ofUnsigned 64, .load, 1⟩] }
    currentId := id + 1 }

/-- Every fetch overrides the one before. -/
theorem reachable_afterFetch (n : ℕ) (hn : n + 2 < 2 ^ 32) :
    Reachable timingAnomalyOptions throughCaches immediateMemory (afterFetch (n + 1)) := by
  induction n with
  | zero => exact .accessInstr .new 64 1
  | succ n ih =>
    have hnext : nextId (n + 2) = n + 3 := by
      have hmod : toUnsigned (n + 2 + 1) = n + 3 := toUnsigned_of_lt (by omega)
      simp [nextId, hmod]
    have hfetch : ((afterFetch (n + 1)).accessInstr 64 1).2 = afterFetch (n + 2) := by
      simp only [afterFetch, accessInstr, hnext, List.tail_cons, List.nil_append]
    rw [← hfetch]
    exact .accessInstr (ih (by omega)) 64 1

/-- The load is started as a hit in the second level when the next identifier is the last
one, 2^32 - 1. -/
def wrapped : Option ThroughTopology :=
  successorAlong (cycle timingAnomalyOptions throughCaches immediateMemory false) [1, 0]
    ((afterFetch (2 ^ 32 - 3)).accessData (.ofUnsigned 64) .load 1).2

/-- Neither the second store, which waits for its write-back to the second level, nor the
load under the last identifier makes progress. -/
theorem not_makesProgress :
    (∃ s t : ℕ → WritebackTopology,
      DataPartRun refutingOptions (writebackCaches 2) immediateMemory s t ∧
        ¬ MakesProgress refutingOptions immediateMemory s t) ∧
    ∃ s t : ℕ → ThroughTopology,
      DataPartRun timingAnomalyOptions throughCaches immediateMemory s t ∧
        ¬ MakesProgress timingAnomalyOptions immediateMemory s t := by
  constructor
  · obtain ⟨m₀, hm₀⟩ : ∃ m₀, storedAlong 2 (new (writebackCaches 2) immediateMemory) 64
        [0, 0, 0, 0] = some m₀ := Option.isSome_iff_exists.mp (by decide +kernel)
    obtain ⟨m, hm⟩ : ∃ m, writtenBack 2 = some m :=
      Option.isSome_iff_exists.mp (by decide +kernel)
    have hfirst : (writtenBack 2).bind
        (firstDataPart refutingOptions (writebackCaches 2) immediateMemory) = writtenBack 2 := by
      decide +kernel
    have hcheck : (writtenBack 2).bind (checkFirst 2) = writtenBack 2 := by decide +kernel
    have hrearmed : (writtenBack 2).all fun m => decide (Rearmed (writebackCaches 2) m) := by
      decide +kernel
    simp only [hm, Option.bind_some, Option.all_some, decide_eq_true_eq] at hfirst hcheck hrearmed
    have hreach : Reachable refutingOptions (writebackCaches 2) immediateMemory m := by
      apply reachable_storedAlong (reachable_storedAlong .new hm₀)
      rw [← hm, writtenBack, hm₀]
      rfl
    have hrun := dataPartRun_const hreach hfirst hcheck
    exact ⟨_, _, hrun, fun h => hrun.not_decreases (i := 0) hrearmed _ (h.1.choose_spec 1)⟩
  · obtain ⟨m, hm⟩ : ∃ m, wrapped = some m := Option.isSome_iff_exists.mp (by decide +kernel)
    have hfirst : wrapped.bind (firstDataPart timingAnomalyOptions throughCaches immediateMemory) =
        wrapped := by decide +kernel
    have hcheck : wrapped.bind (successorAlong (checkDataPart timingAnomalyOptions throughCaches
        immediateMemory) [0]) = wrapped := by decide +kernel
    have hrearmed : wrapped.all fun m => decide (Rearmed throughCaches m) := by decide +kernel
    simp only [hm, Option.bind_some, Option.all_some, decide_eq_true_eq] at hfirst hcheck hrearmed
    have hload : Reachable timingAnomalyOptions throughCaches immediateMemory
        ((afterFetch (2 ^ 32 - 3)).accessData (.ofUnsigned 64) .load 1).2 :=
      .accessData (reachable_afterFetch (2 ^ 32 - 4) (by decide)) _ _ _
    have hreach : Reachable timingAnomalyOptions throughCaches immediateMemory m :=
      successorAlong_invariant (fun _ _ hm h => .cycle hm false h) hload hm
    have hrun := dataPartRun_const hreach hfirst hcheck
    exact ⟨_, _, hrun, fun h => hrun.not_decreases (i := 0) hrearmed _ (h.1.choose_spec 1)⟩

end Example

end JJYSeparateCachesMemoryTopology

end Llvmta
