import Llvmta.Library.LastBefore
import Llvmta.MicroarchitecturalAnalysis.OutOfOrderConservation

/-!
# Operands in the out-of-order pipeline

The register status table has for each register the youngest instruction in the reorder
buffer that defines it. An instruction that waits in a station waits for instructions that
are older and are being executed: the broadcast on the common data bus reaches the stations
in the cycle in which the reorder buffer takes it.
-/

namespace Llvmta.MicroArch.OutOfOrderPipelineState

open Checked ReservationStation RingBuffer

variable {P : Program} {μ : Type} {M : MemoryTopology μ} {s s' t : OutOfOrderPipelineState μ}
  {l rest done : List ReOrderBufferElement} {head : RobTag} {rst : RegisterStatusTable}

/-- The element at the position writes the register. -/
def Defines (l : List ReOrderBufferElement) (reg k : ℕ) : Prop :=
  ∃ elem, l[k]? = some elem ∧ reg ∈ elem.destRegs.keys

/-- The table has for each register the youngest element that defines it. -/
def Tabulates (head : RobTag) (l : List ReOrderBufferElement) (rst : RegisterStatusTable) : Prop :=
  ∀ reg tag, rst.getRobTag reg = some tag ↔
    ∃ k, tag = slot head k ∧ LastBefore (Defines l reg) l.length k

section Table

theorem defines_append (l rest : List ReOrderBufferElement) (reg i : ℕ) :
    Defines (l ++ rest) reg (l.length + i) ↔ Defines rest reg i := by
  unfold Defines
  rw [List.getElem?_append_right (Nat.le_add_right _ _), Nat.add_sub_cancel_left]

theorem defines_append_left {i : ℕ} (hi : i < l.length) (rest : List ReOrderBufferElement)
    (reg : ℕ) : Defines (l ++ rest) reg i ↔ Defines l reg i := by
  unfold Defines
  rw [List.getElem?_append_left hi]

theorem defines_finished (head : RobTag) (cdb : Option RobTag) (l : List ReOrderBufferElement) (reg i : ℕ) :
    Defines (ReOrderBuffer.finished head cdb l) reg i ↔ Defines l reg i := by
  have hregs (l : List ReOrderBufferElement) : Defines l reg i ↔
      ∃ regs, (l.map ReOrderBufferElement.destRegs)[i]? = some regs ∧ reg ∈ regs.keys := by
    unfold Defines
    rw [List.getElem?_map]
    constructor
    · rintro ⟨elem, helem, hreg⟩
      exact ⟨elem.destRegs, by rw [helem, Option.map_some], hreg⟩
    · rintro ⟨regs, hmap, hreg⟩
      obtain ⟨elem, helem, rfl⟩ := Option.map_eq_some_iff.mp hmap
      exact ⟨elem, helem, hreg⟩
  rw [hregs, hregs, ReOrderBuffer.map_finished _ fun _ => rfl]

theorem getRobTag_markNewWriteBack (regs : List ℕ) (rst : RegisterStatusTable) (tag : RobTag)
    (reg : ℕ) : (regs.foldl (fun t reg => t.markNewWriteBack reg tag) rst).getRobTag reg =
      if reg ∈ regs then some tag else rst.getRobTag reg := by
  induction regs generalizing rst with
  | nil => rfl
  | cons r regs ih =>
    rw [List.foldl_cons, ih]
    by_cases hmem : reg ∈ regs
    · rw [if_pos hmem, if_pos (List.mem_cons_of_mem r hmem)]
    · rw [if_neg hmem]
      simp only [RegisterStatusTable.getRobTag, RegisterStatusTable.markNewWriteBack,
        OrderedMap.find?_insert, List.mem_cons, hmem, or_false, eq_comm]

/-- The entry of a register that has one is removed if it is the one of the instruction. -/
theorem getRobTag_writeResultBack {reg : ℕ} (h : rst.getRobTag reg ≠ none) (tag : RobTag)
    (reg' : ℕ) : (rst.writeResultBack reg tag).getRobTag reg' =
      if reg' = reg ∧ rst.getRobTag reg = some tag then none else rst.getRobTag reg' := by
  unfold RegisterStatusTable.getRobTag at h ⊢
  unfold RegisterStatusTable.writeResultBack RegisterStatusTable.lookedUp
  rw [if_neg h]
  split_ifs with htag hreg hreg
  · rw [OrderedMap.find?_erase, if_pos hreg.1]
  · have hne : reg' ≠ reg := fun heq => hreg ⟨heq, htag⟩
    rw [OrderedMap.find?_erase, if_neg hne]
  · exact absurd hreg.2 htag
  · rfl

theorem getRobTag_foldl_writeResultBack {keys : List ℕ} (hnodup : keys.Nodup)
    (h : ∀ reg ∈ keys, rst.getRobTag reg ≠ none) (tag : RobTag) (reg : ℕ) :
    (keys.foldl (fun t dest => t.writeResultBack dest tag) rst).getRobTag reg =
      if reg ∈ keys ∧ rst.getRobTag reg = some tag then none else rst.getRobTag reg := by
  induction keys generalizing rst with
  | nil => simp
  | cons key keys ih =>
    obtain ⟨hkey, hnodup⟩ := List.nodup_cons.mp hnodup
    have hfirst := getRobTag_writeResultBack (h key List.mem_cons_self) tag
    have hsame (reg : ℕ) (hne : reg ≠ key) :
        (rst.writeResultBack key tag).getRobTag reg = rst.getRobTag reg := by
      rw [hfirst, if_neg fun heq => hne heq.1]
    have hothers : ∀ reg ∈ keys, (rst.writeResultBack key tag).getRobTag reg ≠ none := by
      intro reg hreg
      rw [hsame reg fun heq => hkey (heq ▸ hreg)]
      exact h reg (List.mem_cons_of_mem key hreg)
    rw [List.foldl_cons, ih hnodup hothers]
    by_cases hreg : reg = key
    · subst hreg
      rw [if_neg fun hmem => hkey hmem.1, hfirst]
      simp
    · rw [hsame reg hreg]
      simp [hreg]

/-- The table when the first element is committed. -/
theorem Tabulates.commit {elem : ReOrderBufferElement} (hlength : (elem :: l).length ≤ 8)
    (h : Tabulates head (elem :: l) rst) : Tabulates (next head) l
      (elem.destRegs.keys.foldl (fun t dest => t.writeResultBack dest head) rst) := by
  have hshift (reg k : ℕ) : LastBefore (Defines (elem :: l) reg) (elem :: l).length (1 + k) ↔
      LastBefore (Defines l reg) l.length k := by
    rw [List.length_cons, Nat.add_comm l.length]
    exact LastBefore.add_iff fun i => defines_append [elem] l reg i
  have hslot (k : ℕ) : slot (next head) k = slot head (1 + k) := by
    rw [next_eq_slot, slot_slot]
  have hentry : ∀ reg ∈ elem.destRegs.keys, rst.getRobTag reg ≠ none := by
    intro reg hreg
    obtain ⟨k, hk⟩ := exists_lastBefore (n := (elem :: l).length) (p := Defines (elem :: l) reg)
      ⟨0, Nat.succ_pos _, elem, rfl, hreg⟩
    rw [(h reg _).mpr ⟨k, rfl, hk⟩]
    exact Option.some_ne_none _
  intro reg tag
  rw [getRobTag_foldl_writeResultBack elem.destRegs.nodup_keys hentry]
  constructor
  · intro htag
    split_ifs at htag with hwritten
    obtain ⟨k, rfl, hk⟩ := (h reg tag).mp htag
    cases k with
    | zero =>
      obtain ⟨elem', helem', hreg⟩ := hk.holds
      cases helem'
      rw [slot_zero] at htag
      exact absurd ⟨hreg, htag⟩ hwritten
    | succ k =>
      rw [Nat.add_comm] at hk ⊢
      exact ⟨k, (hslot k).symm, (hshift reg k).mp hk⟩
  · rintro ⟨k, rfl, hk⟩
    have hk' := (hshift reg k).mpr hk
    have htag := (h reg _).mpr ⟨1 + k, rfl, hk'⟩
    have hne : slot head (1 + k) ≠ head := by
      have hlt : 1 + k < 8 := hk'.lt.trans_le hlength
      have hne : slot head (1 + k) ≠ slot head 0 := slot_ne hlt (Nat.succ_pos 7) (by omega)
      rwa [slot_zero] at hne
    rw [hslot, htag, if_neg fun hwritten => hne (Option.some.inj hwritten.2)]

/-- The table when an element is put behind the others. -/
theorem Tabulates.issue {ee : ExecutionElement} {destRegs : OrderedMap ℕ Unit} {regs : List ℕ}
    (h : Tabulates head l rst) (hregs : ∀ reg, reg ∈ destRegs.keys ↔ reg ∈ regs) :
    Tabulates head (l ++ [⟨ee, .execute, destRegs⟩])
      (regs.foldl (fun t reg => t.markNewWriteBack reg (slot head l.length)) rst) := by
  intro reg tag
  have hnew : Defines (l ++ [⟨ee, .execute, destRegs⟩]) reg l.length ↔ reg ∈ regs := by
    unfold Defines
    rw [List.getElem?_concat_length, ← hregs]
    simp
  rw [getRobTag_markNewWriteBack, List.length_append, List.length_singleton]
  by_cases hreg : reg ∈ regs
  · simp only [if_pos hreg, LastBefore.succ_of_holds (hnew.mpr hreg), exists_eq_right]
    rw [Option.some_inj, eq_comm]
  · have hold (k : ℕ) : LastBefore (Defines (l ++ [⟨ee, .execute, destRegs⟩]) reg) l.length k ↔
        LastBefore (Defines l reg) l.length k :=
      LastBefore.congr fun i hi => defines_append_left hi _ reg
    simp only [if_neg hreg, LastBefore.succ_of_not (hnew.not.mpr hreg), hold]
    exact h reg tag

end Table

section Waiting

/-- The element waits for elements that are older and executing, and that were the last to
define one of its operands. -/
def WaitsFor (P : Program) (head : RobTag) (l : List ReOrderBufferElement)
    (elem : ReservationStationElement) : Prop :=
  elem.busy = false ∧ ∃ k waiting mi, elem.robTag = slot head k ∧ l[k]? = some waiting ∧
    P.getMachineInstrByAddr waiting.executionElement.1 = some mi ∧
    ∀ src ∈ elem.sources, ∃ j producer, src = slot head j ∧ l[j]? = some producer ∧
      producer.state = .execute ∧ ∃ reg ∈ mi.usedRegisters, LastBefore (Defines l reg) k j

/-- The elements are those of instructions, with the registers these define. -/
def Instructs (P : Program) (l : List ReOrderBufferElement) : Prop :=
  ∀ elem ∈ l, ∃ mi, P.getMachineInstrByAddr elem.executionElement.1 = some mi ∧
    ∀ reg, reg ∈ elem.destRegs.keys ↔ reg ∈ mi.definedRegisters

variable (P) in
structure TracksOperands (s : OutOfOrderPipelineState μ) (l : List ReOrderBufferElement) : Prop where
  instructs : Instructs P l
  tabulates : Tabulates s.reOrderBuffer.robHead l s.regStatTabl
  waits : ∀ rS ∈ s.resStations, ∀ elem ∈ rS.reservationStation,
    WaitsFor P s.reOrderBuffer.robHead l elem

theorem mem_foldl_addSource {regs : List ℕ} {sources : List RobTag} {src : RobTag}
    (h : src ∈ regs.foldl s.addSource sources) :
    src ∈ sources ∨ ∃ reg ∈ regs, s.regStatTabl.getRobTag reg = some src ∧
      s.reOrderBuffer.isExecuted src = false := by
  induction regs generalizing sources with
  | nil => exact .inl h
  | cons reg regs ih =>
    rcases ih h with hmem | ⟨reg', hreg', htag⟩
    · unfold addSource at hmem
      split at hmem
      · next robIndex htag =>
        split_ifs at hmem with hexecuted
        · rcases List.mem_insert_iff.mp hmem with rfl | hmem
          · have hnot := (Bool.and_eq_true_iff.mp hexecuted).1
            exact .inr ⟨reg, List.mem_cons_self, htag, by simpa using hnot⟩
          · exact .inl hmem
        · exact .inl hmem
      · exact .inl hmem
    · exact .inr ⟨reg', List.mem_cons_of_mem reg hreg', htag⟩

theorem mem_sourcesOf {mi : MachineInstr} {src : RobTag} (h : src ∈ s.sourcesOf mi) :
    ∃ reg ∈ mi.usedRegisters, s.regStatTabl.getRobTag reg = some src ∧
      s.reOrderBuffer.isExecuted src = false := by
  rcases mem_foldl_addSource h with hmem | hsrc
  · exact nomatch hmem
  · exact hsrc

/-- An element that is put behind the others does not concern those that wait. -/
theorem WaitsFor.append {elem : ReservationStationElement} (h : WaitsFor P head l elem)
    (rest : List ReOrderBufferElement) : WaitsFor P head (l ++ rest) elem := by
  obtain ⟨hbusy, k, waiting, mi, htag, hk, hmi, hsources⟩ := h
  have hlt : k < l.length := (List.getElem?_eq_some_iff.mp hk).1
  refine ⟨hbusy, k, waiting, mi, htag, (List.getElem?_append_left hlt).trans hk, hmi, ?_⟩
  intro src hsrc
  obtain ⟨j, producer, hslot, hj, hstate, reg, hreg, hlast⟩ := hsources src hsrc
  refine ⟨j, producer, hslot, ?_, hstate, reg, hreg, ?_⟩
  · rwa [List.getElem?_append_left (hlast.lt.trans hlt)]
  · exact (LastBefore.congr fun i hi => defines_append_left (hi.trans hlt) rest reg).mpr hlast

/-- The sources of an instruction are the last ones that define its operands. -/
theorem TracksOperands.waitsFor_new {elem : ReOrderBufferElement} {mi : MachineInstr}
    (h : TracksOperands P s l) (hholds : s.reOrderBuffer.Holds l)
    (hmi : P.getMachineInstrByAddr elem.executionElement.1 = some mi) :
    WaitsFor P s.reOrderBuffer.robHead (l ++ [elem])
      ⟨slot s.reOrderBuffer.robHead l.length, false, s.sourcesOf mi⟩ := by
  refine ⟨rfl, l.length, elem, mi, rfl, List.getElem?_concat_length, hmi, ?_⟩
  intro src hsrc
  obtain ⟨reg, hreg, htag, hexecuted⟩ := mem_sourcesOf hsrc
  obtain ⟨j, rfl, hlast⟩ := (h.tabulates reg src).mp htag
  obtain ⟨producer, hj, hdefines⟩ := hlast.holds
  refine ⟨j, producer, rfl, ?_, ?_, reg, hreg, ?_⟩
  · rwa [List.getElem?_append_left hlast.lt]
  · have hget : s.reOrderBuffer.rob.get (slot s.reOrderBuffer.robHead j) = some producer :=
      hholds.get_of_getElem? hj
    unfold ReOrderBuffer.isExecuted at hexecuted
    rw [hget] at hexecuted
    cases hstate : producer.state with
    | execute => rfl
    | writeBack => simp [hstate] at hexecuted
  · exact (LastBefore.congr fun i hi => defines_append_left hi [elem] reg).mpr hlast

/-- What waits after the cycle of its station waits for what is still executing. -/
theorem WaitsFor.finish {cdb : Option RobTag} {elem elem' : ReservationStationElement}
    {k : ℕ} {executing : ReOrderBufferElement} (h : WaitsFor P head l elem)
    (hlength : l.length ≤ 8) (heq : ReOrderBuffer.finished head cdb l = done ++ rest)
    (hdone : ∀ elem ∈ done, elem.state = .writeBack) (htag : elem'.robTag = elem.robTag)
    (hbusy : elem'.busy = elem.busy)
    (hsources : elem'.sources = elem.sources.filter fun op => some op ≠ cdb)
    (hk : rest[k]? = some executing) (hslot : slot (slot head done.length) k = elem'.robTag) :
    WaitsFor P (slot head done.length) rest elem' := by
  obtain ⟨hbusy', k', waiting, mi, htag', hk', hmi, hwaits⟩ := h
  have hlength' : done.length + rest.length = l.length := by
    have hlengths := congrArg List.length heq
    rw [List.length_append, ReOrderBuffer.length_finished] at hlengths
    exact hlengths.symm
  have hklt : k < rest.length := (List.getElem?_eq_some_iff.mp hk).1
  have hget (j : ℕ) : rest[j]? = (ReOrderBuffer.finished head cdb l)[done.length + j]? := by
    rw [heq, List.getElem?_append_right (Nat.le_add_right _ _), Nat.add_sub_cancel_left]
  have hk'eq : k' = done.length + k := by
    rw [slot_slot, htag, htag'] at hslot
    have hlt : k' < l.length := (List.getElem?_eq_some_iff.mp hk').1
    exact (slot_injective (by omega) (by omega) hslot).symm
  subst hk'eq
  have hexecuting := (hget k).symm.trans hk
  rw [ReOrderBuffer.getElem?_finished, hk', Option.map_some] at hexecuting
  have hsame : executing.executionElement = waiting.executionElement := by
    rw [← Option.some.inj hexecuting]
    split_ifs <;> rfl
  refine ⟨hbusy.trans hbusy', k, executing, mi, hslot.symm, hk, hsame ▸ hmi, fun src hsrc => ?_⟩
  rw [hsources, List.mem_filter] at hsrc
  obtain ⟨j, producer, rfl, hj, hstate, reg, hreg, hlast⟩ := hwaits src hsrc.1
  have hbus : cdb ≠ some (slot head j) := fun heq => of_decide_eq_true hsrc.2 heq.symm
  have hfinished : (ReOrderBuffer.finished head cdb l)[j]? = some producer := by
    rw [ReOrderBuffer.getElem?_finished, hj, Option.map_some, if_neg hbus]
  have hle : done.length ≤ j := by
    by_contra hlt
    rw [heq, List.getElem?_append_left (not_le.mp hlt)] at hfinished
    have hwriteBack := hdone producer (List.mem_of_getElem? hfinished)
    exact nomatch hstate.symm.trans hwriteBack
  obtain ⟨j, rfl⟩ := Nat.exists_eq_add_of_le hle
  refine ⟨j, producer, (slot_slot _ _ _).symm, (hget j).trans hfinished, hstate, reg, hreg, ?_⟩
  have hdefines (i : ℕ) : Defines l reg (done.length + i) ↔ Defines rest reg i := by
    rw [← defines_finished head cdb, heq, defines_append]
  exact (LastBefore.add_iff hdefines).mp hlast

end Waiting

section Phases

theorem TracksOperands.buffers {funcUnits : List FunctionalUnit}
    {resStations : List ReservationStation} {reOrderBuffer : ReOrderBuffer}
    {regStatTabl : RegisterStatusTable} {tempFi finalInstructions : List ExecutionElement}
    (h : TracksOperands P s l) (hs : HoldsTags s l s.commonDataBus)
    (hstations : cycleAll P s.reOrderBuffer s.commonDataBus s.funcUnits s.resStations =
      .ok (funcUnits, resStations))
    (hrob : s.reOrderBuffer.cycle P s.regStatTabl s.commonDataBus =
      .ok (reOrderBuffer, regStatTabl, tempFi))
    (ht : HoldsTags { s with
      funcUnits, resStations, reOrderBuffer, regStatTabl, finalInstructions } rest none) :
    TracksOperands P { s with
      funcUnits, resStations, reOrderBuffer, regStatTabl, finalInstructions } rest := by
  obtain ⟨_, hafter, _⟩ := cycleAll_eq_ok hs.units.single hstations
  let I (head : RobTag) (l : List ReOrderBufferElement) (rst : RegisterStatusTable) : Prop :=
    l.length ≤ 8 ∧ Tabulates head l rst
  have hlengthI : (ReOrderBuffer.finished s.reOrderBuffer.robHead s.commonDataBus l).length ≤ 8 := by
    rw [ReOrderBuffer.length_finished]
    exact hs.holds.length_le
  have hI : I s.reOrderBuffer.robHead
      (ReOrderBuffer.finished s.reOrderBuffer.robHead s.commonDataBus l) s.regStatTabl := by
    refine ⟨hlengthI, fun reg tag => ?_⟩
    have hdefines (k : ℕ) : LastBefore (Defines (ReOrderBuffer.finished s.reOrderBuffer.robHead
        s.commonDataBus l) reg) l.length k ↔ LastBefore (Defines l reg) l.length k :=
      LastBefore.congr fun i _ => defines_finished _ s.commonDataBus l reg i
    simp only [ReOrderBuffer.length_finished, hdefines]
    exact h.tabulates reg tag
  obtain ⟨done, rest', heq, hrest, hhead, _, hdone, _, _, htable⟩ :=
    hs.holds.cycle_eq_ok (I := I)
      (fun head elem l t _ hI => ⟨Nat.le_of_succ_le hI.1, hI.2.commit hI.1⟩) hI hrob
  have hrest' : rest' = rest := hrest.elements_eq.symm.trans ht.holds.elements_eq
  subst hrest'
  refine ⟨?_, htable, ?_⟩
  · intro elem helem
    have hmem : elem ∈ ReOrderBuffer.finished s.reOrderBuffer.robHead s.commonDataBus l := by
      rw [heq]
      exact List.mem_append_right done helem
    obtain ⟨i, hi⟩ := List.mem_iff_getElem?.mp hmem
    rw [ReOrderBuffer.getElem?_finished] at hi
    obtain ⟨elem₀, helem₀, rfl⟩ := Option.map_eq_some_iff.mp hi
    have hinstr := h.instructs elem₀ (List.mem_of_getElem? helem₀)
    split_ifs <;> exact hinstr
  · intro rS' hrS' elem' helem'
    obtain ⟨rS, hrS, _, hstays⟩ := exists_of_afterCycle hafter hrS'
    obtain ⟨elem, helem, htag, hbusy, hsources⟩ := hstays elem' helem'
    have hwaits := h.waits rS hrS elem helem
    have hheld : elem'.robTag ∈ stationTags resStations :=
      List.mem_flatMap.mpr ⟨rS', hrS', List.mem_map_of_mem helem'⟩
    have hexecuting : reOrderBuffer.isExecuting elem'.robTag = true := by
      have howned := ht.owned elem'.robTag
      have hpos := List.count_pos_iff.mpr hheld
      rw [heldTags_eq, List.count_append] at howned
      cases hexec : reOrderBuffer.isExecuting elem'.robTag with
      | true => rfl
      | false =>
        rw [hexec, Bool.toNat_false] at howned
        dsimp only at howned
        omega
    obtain ⟨k, executing, hk, hget, _⟩ := ht.holds.isExecuting_iff.mp hexecuting
    dsimp only at hk ⊢
    rw [hhead] at hk ⊢
    exact hwaits.finish hs.holds.length_le heq hdone htag hbusy (hsources hwaits.1) hget hk

theorem TracksOperands.issue {elem : ReOrderBufferElement} {ee : ExecutionElement}
    {mi : MachineInstr} {k : ℕ} (h : TracksOperands P s l) (hs : HoldsTags s l none)
    (hmi : P.getMachineInstrByAddr ee.1 = some mi) (hissue : issueTo P s ee mi k = .ok s')
    (hs' : HoldsTags s' (l ++ [elem]) none) : TracksOperands P s' (l ++ [elem]) := by
  obtain ⟨rob, rst, robTag, rS, rS', queue, hrob, hrS, hrS', hqueue, rfl⟩ := issueTo_eq_ok hissue
  obtain ⟨mi', destRegs, hmi', _, rfl, hhead, hholds, hregs, rfl⟩ :=
    hs.holds.issueInstruction_eq_ok hrob
  cases hmi.symm.trans hmi'
  have heq : l ++ [elem] = l ++ [⟨ee, .execute, destRegs⟩] :=
    hs'.holds.elements_eq.symm.trans hholds.elements_eq
  obtain rfl : elem = ⟨ee, .execute, destRegs⟩ := by simpa using heq
  refine ⟨?_, ?_, ?_⟩
  · intro elem helem
    rcases List.mem_append.mp helem with helem | helem
    · exact h.instructs elem helem
    · cases List.mem_singleton.mp helem
      exact ⟨mi, hmi, hregs⟩
  · dsimp only
    rw [hhead]
    exact h.tabulates.issue hregs
  · have hold (rS : ReservationStation) (hrS : rS ∈ s.resStations) :
        ∀ elem ∈ rS.reservationStation,
          WaitsFor P s.reOrderBuffer.robHead (l ++ [⟨ee, .execute, destRegs⟩]) elem :=
      fun elem helem => (h.waits rS hrS elem helem).append _
    dsimp only
    rw [hhead]
    cases issueInstruction_eq_ok hrS'
    intro rS₀ hrS₀ elem helem
    rcases List.mem_or_eq_of_mem_set hrS₀ with hrS₀ | rfl
    · exact hold rS₀ hrS₀ elem helem
    · rcases List.mem_append.mp helem with helem | helem
      · exact hold rS (List.mem_of_getElem? hrS) elem helem
      · cases List.mem_singleton.mp helem
        exact h.waitsFor_new hs.holds hmi

theorem phaseInvariant_tracksOperands :
    PhaseInvariant P (TracksOperands (μ := μ) P) where
  frame := by
    rintro s t l h ⟨hrst, hrob, hstations⟩
    refine ⟨h.instructs, ?_, ?_⟩
    · rw [hrst, hrob]
      exact h.tabulates
    · rw [hrob, hstations]
      exact h.waits
  buffers := fun hs hstations hrob ht h => h.buffers hs hstations hrob ht
  issue := fun hs hmi hissue hs' h => h.issue hs hmi hissue hs'
  emptied := by
    rintro s ⟨_, _, hrst, hstations⟩
    refine ⟨(fun elem helem => nomatch helem), fun reg tag => ?_, fun rS hrS elem helem => ?_⟩
    · rw [hrst]
      constructor
      · intro htag
        exact nomatch htag
      · rintro ⟨k, _, hk⟩
        exact absurd hk.lt (Nat.not_lt_zero k)
    · rw [hstations rS hrS] at helem
      exact nomatch helem

end Phases

/-- The instruction at the position in the reorder buffer defines the register. -/
def DefinesAt (P : Program) (l : List ReOrderBufferElement) (reg k : ℕ) : Prop :=
  ∃ elem mi, l[k]? = some elem ∧ P.getMachineInstrByAddr elem.executionElement.1 = some mi ∧
    reg ∈ mi.definedRegisters

/-- The instruction at `j` is the last in front of the one at `k` that defines one of its
operands. -/
def Produces (P : Program) (l : List ReOrderBufferElement) (j k : ℕ) : Prop :=
  ∃ elem mi, l[k]? = some elem ∧ P.getMachineInstrByAddr elem.executionElement.1 = some mi ∧
    ∃ reg ∈ mi.usedRegisters, LastBefore (DefinesAt P l reg) k j

/-- The element at the position is in the given state. -/
def StateAt (l : List ReOrderBufferElement) (j : ℕ) (state : RobState) : Prop :=
  ∃ elem, l[j]? = some elem ∧ elem.state = state

variable (P) in
/-- Operands are waited for exactly. -/
structure ExactOperands (s : OutOfOrderPipelineState μ) : Prop where
  /-- a register has an entry if an instruction defines it, which is that of the youngest -/
  table : ∀ reg tag, s.regStatTabl.getRobTag reg = some tag ↔
    ∃ k, tag = slot s.reOrderBuffer.robHead k ∧
      LastBefore (DefinesAt P s.reOrderBuffer.elements reg) s.reOrderBuffer.elements.length k
  /-- what waits waits for older instructions that are executing -/
  sources : ∀ rS ∈ s.resStations, ∀ elem ∈ rS.reservationStation,
    ∃ k < s.reOrderBuffer.elements.length, elem.robTag = slot s.reOrderBuffer.robHead k ∧
      (∀ src ∈ elem.sources, src ≠ elem.robTag ∧ ∃ j < k,
        src = slot s.reOrderBuffer.robHead j ∧ StateAt s.reOrderBuffer.elements j .execute ∧
        Produces P s.reOrderBuffer.elements j k) ∧
      ((∀ j, Produces P s.reOrderBuffer.elements j k →
        StateAt s.reOrderBuffer.elements j .writeBack) → elem.sources = []) ∧
      ((∀ j < k, StateAt s.reOrderBuffer.elements j .writeBack) → elem.sources = [])

theorem Instructs.defines_iff (h : Instructs P l) (reg k : ℕ) :
    Defines l reg k ↔ DefinesAt P l reg k := by
  constructor
  · rintro ⟨elem, helem, hreg⟩
    obtain ⟨mi, hmi, hregs⟩ := h elem (List.mem_of_getElem? helem)
    exact ⟨elem, mi, helem, hmi, (hregs reg).mp hreg⟩
  · rintro ⟨elem, mi, helem, hmi, hreg⟩
    obtain ⟨mi', hmi', hregs⟩ := h elem (List.mem_of_getElem? helem)
    cases hmi.symm.trans hmi'
    exact ⟨elem, helem, (hregs reg).mpr hreg⟩

theorem StateAt.unique {j : ℕ} {state state' : RobState} (h : StateAt l j state)
    (h' : StateAt l j state') : state = state' := by
  obtain ⟨elem, helem, rfl⟩ := h
  obtain ⟨elem', helem', rfl⟩ := h'
  cases helem.symm.trans helem'
  rfl

end Llvmta.MicroArch.OutOfOrderPipelineState
