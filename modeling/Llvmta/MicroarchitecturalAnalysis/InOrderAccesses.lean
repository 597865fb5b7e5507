import Llvmta.MicroarchitecturalAnalysis.InOrderStages

/-!
# Data accesses of the in-order pipeline

The accesses of an instruction are issued one after the other while it is in the memory stage,
each after the one before was found finished, and the instruction leaves the stage after the
last one.
-/

namespace Llvmta.MicroArch.InOrderPipelineState

open Checked

variable (P : Program) {T : InOrderTarget} {μ : Type} {M : MemoryTopology μ}
  (addrInfo : AddressInformation)

/-- The number of data accesses of an instruction. -/
def accessCount (ee : ExecutionElement) : ℕ :=
  match P.getMachineInstrByAddr ee.1 with
  | some mi => if accessesMemory mi then addrInfo.getNumOfDataAccesses ee.1 else 0
  | none => 0

/-- What happens to the first accesses of an instruction. -/
def accessEvents (ee : ExecutionElement) (n : ℕ) : List DataEvent :=
  (List.range n).flatMap fun pos => [.issued ee pos, .finished ee pos]

/-- What happens to all accesses of an instruction. -/
def allAccesses (ee : ExecutionElement) : List DataEvent :=
  accessEvents ee (accessCount P addrInfo ee)

/-- What has happened to the accesses of an instruction with a number of accesses, as far as
they are noted. -/
inductive Progress (ee : ExecutionElement) (n : ℕ) :
    (currMemoryAccess : ℕ) → (accesses : List (ℕ × ℕ)) → List DataEvent → Prop
  | done : Progress ee n n [] (accessEvents ee n)
  | waiting (pos id : ℕ) (hpos : pos < n) :
    Progress ee n (pos + 1) [(pos, id)] (accessEvents ee pos ++ [.issued ee pos])

/-- What has happened to the accesses of the instruction in the memory stage. -/
def StageProgress (s : InOrderPipelineState μ) (events : List DataEvent) : Prop :=
  match s.exMem with
  | none => events = []
  | some ee =>
    Progress ee (accessCount P addrInfo ee) s.currMemoryAccess s.dataAccessIds.entries events

/-- All data events belong to completed instructions, to the one that is to be completed, or to
the one in the memory stage. -/
def DataInvariant (completed : List ExecutionElement) (events : List DataEvent)
    (s : InOrderPipelineState μ) : Prop :=
  ∃ progress, StageProgress P addrInfo s progress ∧
    events = (completed ++ s.memWb.toList).flatMap (allAccesses P addrInfo) ++ progress

variable {P addrInfo} {s t : InOrderPipelineState μ} {ee : ExecutionElement} {mi : MachineInstr}
  {events events' progress : List DataEvent} {completed : List ExecutionElement}

section Events

theorem accessEvents_succ (ee : ExecutionElement) (n : ℕ) :
    accessEvents ee (n + 1) = accessEvents ee n ++ [.issued ee n, .finished ee n] := by
  simp [accessEvents, List.range_succ]

theorem accessEvents_mono (ee : ExecutionElement) {n n' : ℕ} (h : n ≤ n') :
    accessEvents ee n <+: accessEvents ee n' := by
  induction h with
  | refl => exact List.prefix_rfl
  | step _ ih =>
    rw [accessEvents_succ]
    exact ih.trans (List.prefix_append _ _)

theorem Progress.isPrefix {n curr : ℕ} {accesses : List (ℕ × ℕ)}
    (h : Progress ee n curr accesses events) : events <+: accessEvents ee n := by
  cases h with
  | done => exact List.prefix_rfl
  | waiting pos id hpos =>
    refine List.IsPrefix.trans ?_ (accessEvents_mono ee hpos)
    rw [Nat.succ_eq_add_one, accessEvents_succ]
    exact (List.prefix_append_right_inj _).mpr (List.prefix_append [_] [_])

theorem accessCount_eq (hmi : P.getMachineInstrByAddr ee.1 = some mi) :
    accessCount P addrInfo ee =
      if accessesMemory mi then addrInfo.getNumOfDataAccesses ee.1 else 0 := by
  unfold accessCount
  rw [hmi]

end Events

section Accesses

/-- When no access is under way, the next one is issued, if there is one. -/
theorem progress_of_access (hex : s.exMem = some ee) (hids : s.dataAccessIds.entries = [])
    (hcurr : s.currMemoryAccess ≤ accessCount P addrInfo ee)
    (h : accessDataFromMemoryTopology P M addrInfo s = .ok (t, events)) :
    Progress ee (accessCount P addrInfo ee) t.currMemoryAccess t.dataAccessIds.entries
      (accessEvents ee s.currMemoryAccess ++ events) := by
  obtain ⟨ee', mi, hex', hmi, ⟨hlast, rfl, rfl⟩ | ⟨⟨haccesses, hnext⟩, _, _, id, memory, _, rfl,
    rfl⟩⟩ := accessDataFromMemoryTopology_eq_ok h
  · cases hex.symm.trans hex'
    have hall : t.currMemoryAccess = accessCount P addrInfo ee := by
      rw [accessCount_eq hmi] at hcurr ⊢
      split_ifs at hcurr ⊢ with haccesses
      · exact le_antisymm hcurr (not_lt.mp fun hnext => hlast ⟨haccesses, hnext⟩)
      · exact Nat.le_zero.mp hcurr
    rw [hids, hall, List.append_nil]
    exact .done
  · cases hex.symm.trans hex'
    have hentries : (s.dataAccessIds.insert s.currMemoryAccess id).entries =
        [(s.currMemoryAccess, id)] := by
      change OrderedMap.insertEntry s.currMemoryAccess id s.dataAccessIds.entries = _
      rw [hids]
      rfl
    dsimp only
    rw [hentries]
    refine .waiting s.currMemoryAccess id ?_
    rw [accessCount_eq hmi, if_pos haccesses]
    exact hnext

/-- The access that is under way is finished or not. -/
theorem progress_of_pollAccesses (hex : s.exMem = some ee)
    (hs : Progress ee (accessCount P addrInfo ee) s.currMemoryAccess s.dataAccessIds.entries
      progress)
    (h : pollAccesses P M addrInfo ee s.dataAccessIds.entries s = .ok (t, events)) :
    Progress ee (accessCount P addrInfo ee) t.currMemoryAccess t.dataAccessIds.entries
      (progress ++ events) := by
  generalize hcurr : s.currMemoryAccess = curr at hs
  generalize hentries : s.dataAccessIds.entries = entries at hs h
  cases hs with
  | done =>
    cases h
    rw [hcurr, hentries, List.append_nil]
    exact .done
  | waiting pos id hpos =>
    unfold pollAccesses at h
    split at h
    · obtain ⟨⟨u, issued⟩, hu, h⟩ := bind_eq_ok.mp h
      obtain ⟨⟨v, rest⟩, hv, h⟩ := bind_eq_ok.mp h
      cases hv
      cases h
      have herased : (s.dataAccessIds.erase pos).entries = [] := by
        change s.dataAccessIds.entries.filter (fun e => decide (e.1 ≠ pos)) = []
        rw [hentries]
        simp
      have hprogress := progress_of_access (s := { s with
        memory := _, dataAccessIds := s.dataAccessIds.erase pos }) hex herased
        (hcurr.trans_le hpos) hu
      dsimp only at hprogress
      rw [hcurr, accessEvents_succ] at hprogress
      simpa using hprogress
    · cases h
      dsimp only
      rw [hcurr, hentries, List.append_nil]
      exact .waiting pos id hpos

/-- The instruction stalls until all of its accesses are finished. -/
theorem progress_of_finishAccesses (hmi : P.getMachineInstrByAddr ee.1 = some mi)
    (hex : s.exMem = some ee)
    (hs : Progress ee (accessCount P addrInfo ee) s.currMemoryAccess s.dataAccessIds.entries
      progress)
    (h : finishAccesses P M addrInfo ee mi s = .ok (t, events)) :
    Progress ee (accessCount P addrInfo ee) t.currMemoryAccess t.dataAccessIds.entries
        (progress ++ events) ∧
      (t.stallMemory = false → progress ++ events = allAccesses P addrInfo ee) := by
  unfold finishAccesses at h
  split at h
  · next haccesses =>
    obtain ⟨⟨u, polled⟩, hu, h⟩ := bind_eq_ok.mp h
    obtain ⟨rfl, rfl⟩ := Prod.mk.inj (Except.ok.inj h)
    have hprogress : Progress ee (accessCount P addrInfo ee) u.currMemoryAccess
        u.dataAccessIds.entries (progress ++ polled) :=
      progress_of_pollAccesses (s := { s with stallMemory := true }) hex hs hu
    refine ⟨hprogress, fun hstall => ?_⟩
    have hempty : u.dataAccessIds.entries = [] := by
      simp only [Bool.not_eq_false', Bool.and_eq_true, List.isEmpty_iff] at hstall
      exact hstall.2
    rw [hempty] at hprogress
    generalize u.currMemoryAccess = curr at hprogress
    generalize progress ++ polled = all at hprogress ⊢
    cases hprogress
    rfl
  · next haccesses =>
    cases h
    rw [List.append_nil]
    refine ⟨hs, fun _ => ?_⟩
    have hzero : accessCount P addrInfo ee = 0 := by
      rw [accessCount_eq hmi, if_neg haccesses]
    unfold allAccesses
    rw [hzero] at hs ⊢
    generalize s.currMemoryAccess = curr at hs
    generalize s.dataAccessIds.entries = entries at hs
    cases hs with
    | done => rfl
    | waiting _ _ hpos => exact absurd hpos (Nat.not_lt_zero _)

end Accesses

section Stages

/-- The accesses concern two stages and what is noted about the accesses. -/
theorem DataInvariant.congr (h : DataInvariant P addrInfo completed events s)
    (hexMem : t.exMem = s.exMem) (hmemWb : t.memWb = s.memWb)
    (hcurr : t.currMemoryAccess = s.currMemoryAccess) (hids : t.dataAccessIds = s.dataAccessIds) :
    DataInvariant P addrInfo completed events t := by
  unfold DataInvariant StageProgress at *
  rw [hexMem, hmemWb, hcurr, hids]
  exact h

theorem DataInvariant.writeBack (h : DataInvariant P addrInfo completed events s) :
    DataInvariant P addrInfo (completed ++ s.memWb.toList) events (processWriteBackStage P M s) := by
  obtain ⟨memory, wbFin, heq, _⟩ := processWriteBackStage_frame (P := P) (M := M) s
  obtain ⟨progress, hprogress, hevents⟩ := h
  rw [heq]
  refine ⟨progress, hprogress, ?_⟩
  rw [hevents]
  simp

/-- An instruction leaves the memory stage after its last access. -/
theorem DataInvariant.memoryStage {dep : StateDep} (hroom : s.memWb = none)
    (h : DataInvariant P dep.addrInfo completed events s)
    (ht : MemoryStage P T M dep s t events') :
    DataInvariant P dep.addrInfo completed (events ++ events') t := by
  cases ht with
  | empty =>
    rw [List.append_nil]
    exact h
  | @stays ee mi _ _ hee hmi ht =>
    obtain ⟨progress, hprogress, hevents⟩ := h
    unfold StageProgress at hprogress
    rw [hee] at hprogress
    have hnext := (progress_of_finishAccesses hmi hee hprogress ht).1
    obtain ⟨_, _, _, _, rfl⟩ := finishAccesses_frame ht
    refine ⟨progress ++ events', ?_, ?_⟩
    · unfold StageProgress
      dsimp only
      rw [hee]
      exact hnext
    · rw [hevents, List.append_assoc]
  | @leaves ee mi interlock u v _ hee hmi hu hstall _ _ hv =>
    obtain ⟨progress, hprogress, hevents⟩ := h
    unfold StageProgress at hprogress
    rw [hee] at hprogress
    have hall := (progress_of_finishAccesses hmi hee hprogress hu).2 hstall
    have hmemWb : v.memWb = some ee := by
      obtain ⟨_, _, ⟨_, rfl⟩ | rfl⟩ := hv.frame <;> rfl
    refine ⟨[], rfl, ?_⟩
    dsimp only
    rw [hevents, hmemWb, hroom, List.append_assoc, hall]
    simp

/-- The first access is issued when an instruction leaves the execute stage. -/
theorem DataInvariant.executeStage {dep : StateDep}
    (h : DataInvariant P dep.addrInfo completed events s)
    (ht : ExecuteStage P T M dep s t events') :
    DataInvariant P dep.addrInfo completed (events ++ events') t := by
  cases ht with
  | waits =>
    rw [List.append_nil]
    exact h
  | continues =>
    rw [List.append_nil]
    exact h.congr rfl rfl rfl rfl
  | ends =>
    rw [List.append_nil]
    exact h.congr rfl rfl rfl rfl
  | @leaves ee u v _ hee hroom hu hv =>
    obtain ⟨progress, hprogress, hevents⟩ := h
    unfold StageProgress at hprogress
    rw [hroom] at hprogress
    have hfirst := progress_of_access (s := { s with
      exMem := some ee, dataAccessIds := .empty, currMemoryAccess := 0 }) rfl rfl (Nat.zero_le _) hu
    have hstages : v.exMem = some ee ∧ v.memWb = s.memWb ∧
        v.currMemoryAccess = u.currMemoryAccess ∧ v.dataAccessIds = u.dataAccessIds := by
      obtain ⟨_, _, _, rfl⟩ := accessData_frame hu
      obtain ⟨_, _, ⟨_, rfl⟩ | rfl⟩ := hv.frame <;> exact ⟨rfl, rfl, rfl, rfl⟩
    obtain ⟨hexMem, hmemWb, hcurr, hids⟩ := hstages
    refine ⟨events', ?_, ?_⟩
    · unfold StageProgress
      dsimp only
      rw [hexMem, hcurr, hids]
      simpa [accessEvents] using hfirst
    · dsimp only
      rw [hevents, hprogress, hmemWb, List.append_nil]

theorem DataInvariant.decodeStage (h : DataInvariant P addrInfo completed events s)
    (ht : DecodeStage P s t) : DataInvariant P addrInfo completed events t := by
  cases ht <;> exact h.congr rfl rfl rfl rfl

theorem DataInvariant.fetchStage (h : DataInvariant P addrInfo completed events s)
    (ht : FetchStage P T M s t) : DataInvariant P addrInfo completed events t := by
  obtain ⟨_, _, _, hpolled⟩ := pollFetch_frame (M := M) s
  cases ht with
  | restarts _ ht =>
    obtain ⟨_, _, rfl⟩ := restartFetch_frame ht
    exact h.congr rfl rfl rfl rfl
  | waits =>
    rw [hpolled]
    exact h.congr rfl rfl rfl rfl
  | fetches _ _ _ ht =>
    rw [hpolled] at ht
    obtain ⟨_, _, _, _, rfl, _⟩ := fetch_frame ht
    exact h.congr rfl rfl rfl rfl

end Stages

end Llvmta.MicroArch.InOrderPipelineState
