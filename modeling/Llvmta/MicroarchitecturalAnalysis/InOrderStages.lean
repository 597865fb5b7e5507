import Llvmta.MicroarchitecturalAnalysis.InOrderCycles

/-!
# The stages of the in-order pipeline

Nothing is fetched behind an instruction that stops the fetch until it has taken effect, so
that nothing stands behind an instruction that takes effect in the memory stage. What stands
behind one that takes effect in the execute stage has not been decoded.
-/

namespace Llvmta.MicroArch.InOrderPipelineState

open Checked

variable (P : Program) (T : InOrderTarget) {μ : Type} {M : MemoryTopology μ}

/-- The control-flow instructions that load to the program counter are returns and jump-table
branches. -/
def LoadsReturn : Prop :=
  ∀ addr mi, P.getMachineInstrByAddr addr = some mi → T.loadsToPc mi.getOpcode = true →
    (mi.isReturn || mi.isJumpTableBranch) = true

/-- Every instruction takes some time. -/
def TakesTime : Prop :=
  ∀ opcode times, P.instructionExecutionTimes opcode = some times → times ≠ []

/-- What has been decoded and is not completed, the oldest first. -/
def decoded (s : InOrderPipelineState μ) : List ExecutionElement :=
  s.memWb.toList ++ (s.exMem.toList ++ s.idEx.toList)

/-- No instruction is being accessed. -/
def Stopped (s : InOrderPipelineState μ) : Prop :=
  s.instructionAccessId = none ∧ s.instructionAccessFinished = false

/-- The element is a control-flow instruction that takes effect in the memory stage. -/
def TakesEffectLate (ee : ExecutionElement) : Prop :=
  ∃ mi, P.getMachineInstrByAddr ee.1 = some mi ∧ changesControlFlow mi = true ∧ mi.mayLoad = true

/-- Fetching stops behind the element. -/
def EndsFetch (ee : ExecutionElement) : Prop :=
  ∃ mi, P.getMachineInstrByAddr ee.1 = some mi ∧ stopsFetch T mi = true

/-- What holds of the stages before and after each of them is processed. -/
structure StageInvariant (s : InOrderPipelineState μ) : Prop where
  instr : ∀ ee ∈ s.wbFin.toList ++ s.decoded, P.hasMachineInstrByAddr ee.1 = true
  times : s.remainingExecutionTimes = [] ↔ s.idEx = none
  access : s.instructionAccessFinished = true → s.instructionAccessId = none
  memory : ∀ ee, s.exMem = some ee → TakesEffectLate P ee →
    s.idEx = none ∧ s.ifId = none ∧ Stopped s
  execute : ∀ ee, s.idEx = some ee → EndsFetch P T ee → s.ifId = none ∧ Stopped s
  decode : ∀ ee, s.ifId = some ee → EndsFetch P T ee → Stopped s
  flushed : s.flushedFetchStage = true → s.ifId = none ∧ s.idEx = none ∧
    ∀ ee, s.exMem = some ee → ¬ TakesEffectLate P ee

variable {P T} {s t : InOrderPipelineState μ} {ee : ExecutionElement}

section Branches

/-- A branch changes the superclass and the memory, and either flushes what was fetched or may
start an access. -/
theorem Branches.frame {ins2ctx : InstrContextMapping} {memory : Bool}
    (h : Branches P T M ins2ctx memory ee s t) : ∃ m memory,
      (∃ instructionAccessId, t = { s with toMicroArchitecturalState := m, memory, instructionAccessId }) ∨
        t = { s with
          toMicroArchitecturalState := m, memory, flushedFetchStage := true, ifId := none } := by
  cases h with
  | plain => exact ⟨_, _, .inl ⟨_, rfl⟩⟩
  | @flushes mi m₀ m _ _ _ _ _ _ _ ht =>
    obtain ⟨memory, rfl⟩ := emptyPipelineDueToBranching_frame ht
    exact ⟨m, memory, .inr rfl⟩
  | alternative => exact ⟨_, _, .inl ⟨_, rfl⟩⟩
  | @accesses mi m₀ m _ _ _ _ _ _ _ _ _ ht =>
    obtain ⟨id, memory, _, rfl⟩ := accessInstruction_eq_ok ht
    exact ⟨m, memory, .inl ⟨id, rfl⟩⟩

/-- Fetching stops behind an instruction that takes effect late. -/
theorem endsFetch_of_loads (hloads : LoadsReturn P T) {mi : MachineInstr}
    (hmi : P.getMachineInstrByAddr ee.1 = some mi) (h : T.loadsToPc mi.getOpcode = true) :
    EndsFetch P T ee := by
  refine ⟨mi, hmi, ?_⟩
  have hreturn := hloads ee.1 mi hmi h
  revert hreturn
  unfold stopsFetch
  cases mi.isCall <;> cases mi.isReturn <;> cases mi.isJumpTableBranch <;> simp

theorem not_takesEffectLate {mi : MachineInstr} (hmi : P.getMachineInstrByAddr ee.1 = some mi)
    (hload : mi.mayLoad = false) : ¬ TakesEffectLate P ee := by
  rintro ⟨mi', hmi', _, hload'⟩
  cases hmi.symm.trans hmi'
  rw [hload] at hload'
  exact nomatch hload'

end Branches

section Stages

theorem decoded_processWriteBackStage (s : InOrderPipelineState μ) :
    s.decoded = s.memWb.toList ++ (processWriteBackStage P M s).decoded := by
  unfold processWriteBackStage decoded
  split
  · next hmem =>
    rw [hmem]
    rfl
  · next hmem =>
    rw [hmem]
    rfl

theorem processWriteBackStage_frame (s : InOrderPipelineState μ) :
    ∃ memory wbFin, processWriteBackStage P M s = { s with memory, wbFin, memWb := none } ∧
      (wbFin = s.memWb ∨ s.memWb = none ∧ wbFin = s.wbFin) := by
  unfold processWriteBackStage
  split
  · next hmem =>
    refine ⟨s.memory, s.wbFin, ?_, .inr ⟨hmem, rfl⟩⟩
    rw [← hmem]
  · next hmem => exact ⟨_, _, rfl, .inl hmem.symm⟩

theorem StageInvariant.writeBack (h : StageInvariant P T s) :
    StageInvariant P T (processWriteBackStage P M s) := by
  have hdecoded := decoded_processWriteBackStage (P := P) (M := M) s
  obtain ⟨memory, wbFin, heq, hwbFin⟩ := processWriteBackStage_frame (P := P) (M := M) s
  have hinstr : ∀ ee ∈ wbFin.toList ++ (processWriteBackStage P M s).decoded,
      P.hasMachineInstrByAddr ee.1 = true := by
    intro ee hee
    apply h.instr
    rw [hdecoded]
    rcases List.mem_append.mp hee with hee | hee
    · rcases hwbFin with rfl | ⟨_, rfl⟩
      · exact List.mem_append_right _ (List.mem_append_left _ hee)
      · exact List.mem_append_left _ hee
    · exact List.mem_append_right _ (List.mem_append_right _ hee)
  rw [heq] at hinstr ⊢
  exact ⟨hinstr, h.times, h.access, h.memory, h.execute, h.decode, h.flushed⟩

/-- The memory stage moves an instruction on to the write-back stage, which is empty. -/
theorem StageInvariant.memoryStage {dep : StateDep} {events : List DataEvent}
    (h : StageInvariant P T s) (ht : MemoryStage P T M dep s t events) :
    StageInvariant P T t ∧ t.decoded = s.decoded ∧
      (t.ifId = s.ifId ∧ t.flushedFetchStage = s.flushedFetchStage ∨
        t.ifId = none ∧ t.flushedFetchStage = true) := by
  cases ht with
  | empty => exact ⟨h, rfl, .inl ⟨rfl, rfl⟩⟩
  | stays _ _ ht =>
    obtain ⟨_, _, _, _, rfl⟩ := finishAccesses_frame ht
    exact ⟨⟨h.instr, h.times, h.access, h.memory, h.execute, h.decode, h.flushed⟩, rfl,
      .inl ⟨rfl, rfl⟩⟩
  | @leaves ee mi interlock u v events hee hmi hu _ hroom _ hv =>
    obtain ⟨_, _, _, _, rfl⟩ := finishAccesses_frame hu
    have hroom : s.memWb = none := hroom
    have hdecoded : (some ee).toList ++ ((none : Option ExecutionElement).toList ++ s.idEx.toList) =
        s.decoded := by
      unfold decoded
      rw [hroom, hee]
      rfl
    have hinstr : ∀ ee' ∈ s.wbFin.toList ++
        ((some ee).toList ++ ((none : Option ExecutionElement).toList ++ s.idEx.toList)),
        P.hasMachineInstrByAddr ee'.1 = true := by
      rw [hdecoded]
      exact h.instr
    have hlate {mi' : MachineInstr} (hmi' : P.getMachineInstrByAddr ee.1 = some mi')
        (hcontrol : changesControlFlow mi' = true) (hload : mi'.mayLoad = true) :=
      h.memory ee hee ⟨mi', hmi', hcontrol, hload⟩
    cases hv with
    | plain =>
      exact ⟨⟨hinstr, h.times, h.access, (fun ee hee => nomatch hee), h.execute, h.decode,
        fun hflushed => ⟨(h.flushed hflushed).1, (h.flushed hflushed).2.1, fun ee hee => nomatch hee⟩⟩,
        hdecoded, .inl ⟨rfl, rfl⟩⟩
    | flushes hmi' hcontrol hload _ _ hflush =>
      obtain ⟨hidEx, hifId, hstopped⟩ := hlate hmi' hcontrol hload
      obtain ⟨memory, rfl⟩ := emptyPipelineDueToBranching_frame hflush
      refine ⟨⟨hinstr, h.times, h.access, (fun ee hee => nomatch hee), ?_, (fun ee hee => nomatch hee),
        fun _ => ⟨rfl, hidEx, fun ee hee => nomatch hee⟩⟩, hdecoded, .inr ⟨rfl, rfl⟩⟩
      exact fun ee hee => nomatch hidEx.symm.trans hee
    | alternative hmi' hcontrol hload =>
      obtain ⟨hidEx, hifId, hstopped⟩ := hlate hmi' hcontrol hload
      refine ⟨⟨hinstr, h.times, h.access, (fun ee hee => nomatch hee), h.execute, h.decode,
        fun hflushed => ⟨hifId, hidEx, fun ee hee => nomatch hee⟩⟩, hdecoded, .inl ⟨rfl, rfl⟩⟩
    | accesses hmi' hcontrol hload _ _ _ _ haccess =>
      obtain ⟨hidEx, hifId, hstopped⟩ := hlate hmi' hcontrol hload
      obtain ⟨id, memory, _, rfl⟩ := accessInstruction_eq_ok haccess
      refine ⟨⟨hinstr, h.times, ?_, (fun ee hee => nomatch hee), ?_, ?_,
        fun hflushed => ⟨hifId, hidEx, fun ee hee => nomatch hee⟩⟩, hdecoded, .inl ⟨rfl, rfl⟩⟩
      · exact fun hfinished => nomatch hstopped.2.symm.trans hfinished
      · exact fun ee hee => nomatch hidEx.symm.trans hee
      · exact fun ee hee => nomatch hifId.symm.trans hee

/-- The execute stage moves an instruction on to the memory stage, which is empty. -/
theorem StageInvariant.executeStage {dep : StateDep} {events : List DataEvent}
    (hloads : LoadsReturn P T) (h : StageInvariant P T s)
    (ht : ExecuteStage P T M dep s t events) :
    StageInvariant P T t ∧ t.decoded = s.decoded ∧
      (t.ifId = s.ifId ∧ t.flushedFetchStage = s.flushedFetchStage ∨
        t.ifId = none ∧ t.flushedFetchStage = true) := by
  cases ht with
  | waits => exact ⟨h, rfl, .inl ⟨rfl, rfl⟩⟩
  | @continues ee times hee htimes =>
    have hiff : times = [] ↔ s.idEx = none := by
      rw [hee]
      simpa using htimes
    exact ⟨⟨h.instr, hiff, h.access, h.memory, h.execute, h.decode, h.flushed⟩, rfl,
      .inl ⟨rfl, rfl⟩⟩
  | @ends ee hee hmi =>
    have hinstr : P.hasMachineInstrByAddr ee.1 = true := by
      apply h.instr
      simp [decoded, hee]
    unfold Program.hasMachineInstrByAddr at hinstr
    rw [hmi] at hinstr
    exact nomatch hinstr
  | @leaves ee u v events hee hroom hu hv =>
    obtain ⟨_, _, _, rfl⟩ := accessData_frame hu
    have hdecoded : s.memWb.toList ++ ((some ee).toList ++ (none : Option ExecutionElement).toList) =
        s.decoded := by
      unfold decoded
      rw [hroom, hee]
      rfl
    have hinstr : ∀ ee' ∈ s.wbFin.toList ++ (s.memWb.toList ++
        ((some ee).toList ++ (none : Option ExecutionElement).toList)),
        P.hasMachineInstrByAddr ee'.1 = true := by
      rw [hdecoded]
      exact h.instr
    have hnotFlushed {P' : Prop} (hflushed : s.flushedFetchStage = true) : P' :=
      nomatch (h.flushed hflushed).2.1.symm.trans hee
    have hself {mi : MachineInstr} (hmi : P.getMachineInstrByAddr ee.1 = some mi)
        (hload : mi.mayLoad = false) (ee' : ExecutionElement) (hee' : some ee = some ee') :
        ¬ TakesEffectLate P ee' := by
      cases hee'
      exact not_takesEffectLate hmi hload
    cases hv with
    | plain hplain =>
      refine ⟨⟨hinstr, ⟨fun _ => rfl, fun _ => rfl⟩, h.access, ?_, (fun ee hee => nomatch hee),
        h.decode, hnotFlushed⟩, hdecoded, .inl ⟨rfl, rfl⟩⟩
      intro ee' hee' hlate
      cases hee'
      obtain ⟨mi, hmi, hcontrol, _⟩ := hlate
      have hends := endsFetch_of_loads hloads hmi ((hplain mi hmi hcontrol).2 rfl)
      exact ⟨rfl, (h.execute ee hee hends).1, (h.execute ee hee hends).2⟩
    | flushes hmi hcontrol hload _ _ hflush =>
      obtain ⟨memory, rfl⟩ := emptyPipelineDueToBranching_frame hflush
      exact ⟨⟨hinstr, ⟨fun _ => rfl, fun _ => rfl⟩, h.access,
        fun ee' hee' hlate => absurd hlate (hself hmi hload ee' hee'),
        (fun ee hee => nomatch hee), (fun ee hee => nomatch hee),
        fun _ => ⟨rfl, rfl, hself hmi hload⟩⟩, hdecoded, .inr ⟨rfl, rfl⟩⟩
    | alternative hmi hcontrol hload =>
      exact ⟨⟨hinstr, ⟨fun _ => rfl, fun _ => rfl⟩, h.access,
        fun ee' hee' hlate => absurd hlate (hself hmi hload ee' hee'),
        (fun ee hee => nomatch hee), h.decode, hnotFlushed⟩, hdecoded, .inl ⟨rfl, rfl⟩⟩
    | @accesses mi _ _ _ _ hmi hcontrol hload hreturn _ _ hstrict haccess =>
      have hends : EndsFetch P T ee := by
        refine ⟨mi, hmi, ?_⟩
        rw [Bool.or_eq_false_iff] at hreturn
        revert hcontrol
        unfold changesControlFlow stopsFetch
        rw [hreturn.1, hstrict]
        cases mi.isBranch <;> cases mi.isCall <;> simp
      obtain ⟨hifId, hstopped⟩ := h.execute ee hee hends
      obtain ⟨id, memory, _, rfl⟩ := accessInstruction_eq_ok haccess
      exact ⟨⟨hinstr, ⟨fun _ => rfl, fun _ => rfl⟩,
        (fun hfinished => nomatch hstopped.2.symm.trans hfinished),
        fun ee' hee' hlate => absurd hlate (hself hmi hload ee' hee'),
        (fun ee hee => nomatch hee), (fun ee hee => nomatch hifId.symm.trans hee), hnotFlushed⟩,
        hdecoded, .inl ⟨rfl, rfl⟩⟩

theorem StageInvariant.decodeStage (htakes : TakesTime P) (h : StageInvariant P T s)
    (ht : DecodeStage P s t) :
    StageInvariant P T t ∧ t.flushedFetchStage = s.flushedFetchStage := by
  cases ht with
  | waits => exact ⟨h, rfl⟩
  | ends hee hroom =>
    exact ⟨⟨h.instr, h.times, h.access,
      fun ee hex hlate => ⟨(h.memory ee hex hlate).1, rfl, (h.memory ee hex hlate).2.2⟩,
      fun ee hee hends => ⟨rfl, (h.execute ee hee hends).2⟩, (fun ee hee => nomatch hee),
      fun hflushed => ⟨rfl, (h.flushed hflushed).2⟩⟩, rfl⟩
  | @decodes ee mi times hee hroom hmi htimes =>
    have hinstr : ∀ ee' ∈ s.wbFin.toList ++
        (s.memWb.toList ++ (s.exMem.toList ++ (some ee).toList)),
        P.hasMachineInstrByAddr ee'.1 = true := by
      intro ee' hee'
      rw [← List.append_assoc s.memWb.toList, ← List.append_assoc] at hee'
      rcases List.mem_append.mp hee' with hee' | hee'
      · apply h.instr
        unfold decoded
        rw [hroom]
        simpa using hee'
      · cases List.mem_singleton.mp hee'
        exact Option.isSome_iff_exists.mpr ⟨mi, hmi⟩
    refine ⟨⟨hinstr, ⟨fun htimes' => absurd htimes' (htakes _ _ htimes), fun hee => nomatch hee⟩,
      h.access, ?_, ?_, (fun ee hee => nomatch hee), ?_⟩, rfl⟩
    · exact fun ee' hex hlate => nomatch (h.memory ee' hex hlate).2.1.symm.trans hee
    · intro ee' hee' hends
      cases hee'
      exact ⟨rfl, h.decode ee hee hends⟩
    · exact fun hflushed => nomatch (h.flushed hflushed).1.symm.trans hee

/-- A finished access is noted, after which no other one is under way. -/
theorem pollFetch_cases (s : InOrderPipelineState μ) :
    ∃ memory, (memory = s.memory ∨ ∃ id, memory = (M.finishedInstrAccess s.memory id).2) ∧
      (pollFetch M s = { s with memory } ∨
        ∃ id, s.instructionAccessId = some id ∧ pollFetch M s =
          { s with memory, instructionAccessFinished := true, instructionAccessId := none }) := by
  unfold pollFetch
  split
  · exact ⟨s.memory, .inl rfl, .inl rfl⟩
  · next id hid =>
    split
    · next heq => exact ⟨_, .inr ⟨id, (congrArg Prod.snd heq).symm⟩, .inr ⟨id, hid, rfl⟩⟩
    · next heq => exact ⟨_, .inr ⟨id, (congrArg Prod.snd heq).symm⟩, .inl rfl⟩

/-- What the fetch does to the stages. -/
theorem fetch_frame (h : fetch P T M s = .ok t) :
    ∃ pc memory instructionAccessId, P.fetchNext s.pc = .ok pc ∧
      t = { s with
        pc, ifId := some s.pc, instructionAccessFinished := false, memory, instructionAccessId } ∧
      (P.getMachineInstrByAddr s.pc.1 = none ∨ EndsFetch P T s.pc →
        instructionAccessId = s.instructionAccessId) := by
  obtain ⟨pc, hpc, h⟩ := bind_eq_ok.mp h
  dsimp only at h
  split at h
  · cases h
    exact ⟨pc, _, _, hpc, rfl, fun _ => rfl⟩
  · next instr hmi =>
    split at h
    · cases h
      exact ⟨pc, _, _, hpc, rfl, fun _ => rfl⟩
    · next hcontinues =>
      obtain ⟨id, memory, _, rfl⟩ := accessInstruction_eq_ok h
      refine ⟨pc, memory, id, hpc, rfl, ?_⟩
      rintro (hnone | ⟨instr', hmi', hstops⟩)
      · exact nomatch hnone.symm.trans hmi
      · cases hmi.symm.trans hmi'
        exact absurd hstops hcontinues

theorem restartFetch_frame (h : restartFetch P M s = .ok t) :
    ∃ memory instructionAccessId, t = { s with
      instructionAccessFinished := false, flushedFetchStage := false, memory
      instructionAccessId } := by
  obtain ⟨u, hu, h⟩ := bind_eq_ok.mp h
  obtain ⟨id, memory, _, rfl⟩ := accessInstruction_eq_ok h
  unfold enterAfterFlush at hu
  split at hu
  · obtain ⟨_, _, hu⟩ := bind_eq_ok.mp hu
    cases hu
    exact ⟨memory, id, rfl⟩
  · cases hu
    exact ⟨memory, id, rfl⟩

theorem StageInvariant.fetchStage (h : StageInvariant P T s) (ht : FetchStage P T M s t) :
    StageInvariant P T t ∧ t.decoded = s.decoded ∧ t.flushedFetchStage = false := by
  cases ht with
  | restarts hflushed ht =>
    obtain ⟨hifId, hidEx, hlate⟩ := h.flushed hflushed
    obtain ⟨memory, id, rfl⟩ := restartFetch_frame ht
    exact ⟨⟨h.instr, h.times, (fun hfinished => nomatch hfinished),
      fun ee hee hlate' => absurd hlate' (hlate ee hee),
      (fun ee hee => nomatch hidEx.symm.trans hee), (fun ee hee => nomatch hifId.symm.trans hee),
      fun hflushed' => nomatch hflushed'⟩, rfl, rfl⟩
  | waits hflushed =>
    obtain ⟨memory, _, heq | ⟨id, hid, heq⟩⟩ := pollFetch_cases (M := M) s
    · rw [heq]
      exact ⟨⟨h.instr, h.times, h.access, h.memory, h.execute, h.decode, h.flushed⟩, rfl, hflushed⟩
    · rw [heq]
      have hbusy {P' : Prop} (hstopped : Stopped s) : P' := nomatch hid.symm.trans hstopped.1
      exact ⟨⟨h.instr, h.times, fun _ => rfl,
        fun ee hee hlate => hbusy (h.memory ee hee hlate).2.2,
        fun ee hee hends => hbusy (h.execute ee hee hends).2,
        fun ee hee hends => hbusy (h.decode ee hee hends), h.flushed⟩, rfl, hflushed⟩
  | fetches hflushed hroom hfinished ht =>
    have hpolled : (¬ Stopped s) ∧ ∃ memory, pollFetch M s =
        { s with memory, instructionAccessFinished := true, instructionAccessId := none } := by
      obtain ⟨memory, _, heq | ⟨id, hid, heq⟩⟩ := pollFetch_cases (M := M) s
      · rw [heq] at hfinished ⊢
        have hfinished : s.instructionAccessFinished = true := hfinished
        refine ⟨(fun hstopped => nomatch hstopped.2.symm.trans hfinished), memory, ?_⟩
        rw [← hfinished, ← h.access hfinished]
      · exact ⟨(fun hstopped => nomatch hid.symm.trans hstopped.1), memory, heq⟩
    obtain ⟨hbusy, memory, heq⟩ := hpolled
    rw [heq] at ht
    obtain ⟨pc, memory', id, _, rfl, hstops⟩ := fetch_frame ht
    refine ⟨⟨h.instr, h.times, (fun hfinished => nomatch hfinished),
      fun ee hee hlate => absurd (h.memory ee hee hlate).2.2 hbusy,
      (fun ee hee hends => absurd (h.execute ee hee hends).2 hbusy), ?_,
      fun hflushed' => nomatch hflushed.symm.trans hflushed'⟩, rfl, hflushed⟩
    intro ee hee hends
    cases hee
    exact ⟨hstops (.inr hends), rfl⟩

end Stages

end Llvmta.MicroArch.InOrderPipelineState
