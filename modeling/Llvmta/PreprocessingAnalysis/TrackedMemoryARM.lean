import Llvmta.PreprocessingAnalysis.MachineARM

/-!
# Soundness of the tracked memory on ARM

A store takes away the entries of the addresses it is computed for, or of an
interval of addresses, and may add entries for the words it stores. The entries
that survive stay right exactly if the bytes that are stored into their words are
the ones already there. Nothing ensures this for words that overlap the access
under another address, for alias-free slots, or for the stores of
`VSTMDDB_UPD`, which are not looked at.
-/

namespace Llvmta
namespace ARM

open Checked ByteMemory ConstantValueDomain

variable (L : LinkedProgram) (MI : Instr)

/-- The entry of a tracked address outlives the accesses of an instruction. -/
def SurvivesAll (P : StaticAddresses) (σ : ConstantValueDomain) (a : Word) : Prop :=
  ∀ numAcc, MI.opcode.getNumOfDataAccesses = .ok numAcc →
    SurvivesAccesses P (a ∈ σ.aliasfreeSlots) (getDataAccessAddress P MI σ) a numAcc 0

/-- The entry outlives the instruction; one store does not touch any entry. -/
def SurvivesStore (σ : ConstantValueDomain) (a : Word) : Prop :=
  match MI.opcode with
  | .VSTMDDB_UPD .. => True
  | _ => SurvivesAll MI L.toStaticAddresses σ a

/-- The condition on an instruction, the domain element and the state before it:
the surviving entries keep their bytes. -/
def MemoryExact (σ : ConstantValueDomain) (s : State) : Prop :=
  ∀ mode bytes, MI.opcode.addrMode = some mode → storedBytes s MI.opcode = some bytes →
    ∀ a, (σ.addr2const.find? a).isSome → SurvivesStore L MI (entered MI σ) a →
      Harmless s.mem (target s mode) bytes a

/-- What a store does to the entries: those that survive stay, and there are others
only where they are right for the memory after it. -/
structure TracksStore (σ σ' : ConstantValueDomain) (survives : Word → Prop)
    (mem : Word → BitVec 8) : Prop where
  reachable : σ'.bot = σ.bot
  kept : ∀ a v, σ.addr2const.find? a = some v → survives a → σ'.addr2const.find? a = some v
  sound : ∀ a v, σ'.addr2const.find? a = some v →
    (σ.addr2const.find? a = some v ∧ survives a) ∨ wordAt mem a = v

variable {L MI} {σ σ' : ConstantValueDomain} {s s' : State}

theorem RegList.length_le (regs : RegList) : regs.regs.length ≤ 32 := by
  have hnodup : regs.regs.Nodup := regs.sorted.imp fun h => h.ne
  calc regs.regs.length = regs.regs.toFinset.card := (List.toFinset_card_of_nodup hnodup).symm
    _ ≤ (Finset.range 32).card := by
        apply Finset.card_le_card
        intro r hr
        exact Finset.mem_range.mpr (regs.lt r (List.mem_toFinset.mp hr))
    _ = 32 := Finset.card_range 32

section Entering

theorem mapParameters_eq (liveinregs : List ℕ) (debugValues : List (ℕ × String))
    (σ : ConstantValueDomain) : ∃ params,
      mapParameters liveinregs debugValues σ = { σ with fnparam2symbol := params } := by
  induction debugValues generalizing liveinregs σ with
  | nil => exact ⟨σ.fnparam2symbol, rfl⟩
  | cons d debugValues ih =>
    obtain ⟨regnr, argstr⟩ := d
    rw [mapParameters]
    split_ifs
    · cases σ.reg2symbol.find? regnr with
      | none => exact ih _ σ
      | some glvar => exact ih _ { σ with fnparam2symbol := _ }
    · exact ih liveinregs σ

/-- Entering a function changes the symbols of parameters only. -/
theorem entered_eq (MI : Instr) (σ : ConstantValueDomain) : ∃ params,
    entered MI σ = { σ with fnparam2symbol := params } := by
  unfold entered
  cases MI.functionEntry with
  | none =>
    dsimp only
    split_ifs
    · exact ⟨_, rfl⟩
    · exact ⟨σ.fnparam2symbol, rfl⟩
  | some entry =>
    obtain ⟨params, hparams⟩ := mapParameters_eq entry.liveinregs entry.debugValues σ
    simp only [hparams]
    split_ifs
    · exact ⟨_, rfl⟩
    · exact ⟨params, rfl⟩

theorem describes_entered (hσ : σ.Describes s.toMachineState) :
    (entered MI σ).Describes s.toMachineState := by
  obtain ⟨params, hparams⟩ := entered_eq MI σ
  rw [hparams]
  exact ⟨hσ.reachable, hσ.regs, hσ.mem⟩

end Entering

section Addresses

variable {P : StaticAddresses} {addr : DataAddress} {a : Word} {pos : ℕ}

/-- Without a constant for the base register the address is not precise. -/
theorem precise?_addressOfUnknownBase (memoperands : List MachineMemOperand) (base : ℕ) :
    (σ.addressOfUnknownBase P memoperands base).precise? = none := by
  unfold addressOfUnknownBase extractGlobalDatastructure
  split
  · exact DataAddress.precise?_ofGlobalVariable P _
  · split
    · exact DataAddress.precise?_ofGlobalVariable P _
    · rfl

theorem address_i12 {base : ℕ} {imm : ℤ} (hσ : σ.Describes s.toMachineState)
    (hmode : MI.opcode.addrMode = some (.i12 base imm))
    (h : getDataAccessAddress P MI σ pos = .ok addr) (ha : addr.precise? = some a) :
    a = target s (.i12 base imm) := by
  simp only [getDataAccessAddress, hσ.reachable, hmode, Bool.false_eq_true, if_false] at h
  cases hbase : σ.reg2const.find? base with
  | none =>
    rw [hbase] at h
    cases h
    rw [precise?_addressOfUnknownBase] at ha
    cases ha
  | some value =>
    rw [hbase] at h
    cases h
    rw [DataAddress.precise?_ofAddress, Option.some_inj] at ha
    rw [← ha, target, hσ.regs base value hbase]

theorem address_mode4 {submode : AMSubMode} {base numopreglist : ℕ}
    (hσ : σ.Describes s.toMachineState)
    (hmode : MI.opcode.addrMode = some (.mode4 submode base numopreglist))
    (h : getDataAccessAddress P MI σ pos = .ok addr) (ha : addr.precise? = some a) :
    a = target s (.mode4 submode base numopreglist) + BitVec.ofNat 32 pos * 4 := by
  simp only [getDataAccessAddress, hσ.reachable, hmode, Bool.false_eq_true, if_false] at h
  cases hbase : σ.reg2const.find? base with
  | none =>
    rw [hbase] at h
    cases h
    cases ha
  | some value =>
    rw [hbase] at h
    obtain ⟨_, _, h⟩ := bind_eq_ok.mp h
    cases h
    rw [DataAddress.precise?_ofAddress, Option.some_inj] at ha
    rw [← ha, target, hσ.regs base value hbase]

end Addresses

section Stores

variable {P : StaticAddresses} {a v : Word}

theorem find?_performStoreValue {memoperands : List MachineMemOperand} {c : Word}
    {valptr : Option Word} {sym : Option GlobalVariable} :
    (σ.performStoreValue memoperands c valptr sym).addr2const.find? a = some v ↔
      (a ≠ c ∧ σ.addr2const.find? a = some v) ∨ (a = c ∧ valptr = some v) := by
  cases valptr with
  | none =>
    rw [performStoreValue, OrderedMap.assign, OrderedMap.find?_erase]
    split_ifs with hac <;> simp [hac]
  | some w =>
    rw [performStoreValue, OrderedMap.assign, OrderedMap.find?_insert]
    by_cases hac : c = a
    · simp [hac]
    · simp [hac, Ne.symm hac]

/-- A store to another address does not make a slot, or stop it from being one. -/
theorem mem_aliasfreeSlots_performStoreValue {memoperands : List MachineMemOperand} {c : Word}
    {valptr : Option Word} {sym : Option GlobalVariable} (hac : a ≠ c) :
    (a ∈ (σ.performStoreValue memoperands c valptr sym).aliasfreeSlots) =
      (a ∈ σ.aliasfreeSlots) := by
  unfold performStoreValue
  dsimp only
  split_ifs <;> simp [hac]

theorem storeRegisters_sameRegisters {regs : List ℕ} {pos : ℕ}
    (h : storeRegisters P MI regs pos σ = .ok σ') : SameRegisters σ σ' := by
  induction regs generalizing pos σ with
  | nil =>
    cases h
    exact ⟨rfl, rfl, rfl⟩
  | cons srcnr regs ih =>
    obtain ⟨addr, _, h⟩ := bind_eq_ok.mp h
    cases hprecise : addr.precise? with
    | none =>
      rw [hprecise] at h
      exact performStoreUnknownAddress_sameRegisters h
    | some c =>
      simp only [hprecise] at h
      have hrest := ih h
      exact hrest

/-- The entries that survive all stores of a list of registers stay. -/
theorem storeRegisters_kept {regs : List ℕ} {pos : ℕ}
    (h : storeRegisters P MI regs pos σ = .ok σ') (hv : σ.addr2const.find? a = some v)
    (hsurvives : SurvivesAccesses P (a ∈ σ.aliasfreeSlots) (getDataAccessAddress P MI σ) a
      regs.length pos) : σ'.addr2const.find? a = some v := by
  induction regs generalizing pos σ with
  | nil =>
    cases h
    exact hv
  | cons srcnr regs ih =>
    obtain ⟨addr, haddr, h⟩ := bind_eq_ok.mp h
    obtain ⟨hsurvive, hrest⟩ := hsurvives addr haddr
    cases hprecise : addr.precise? with
    | none =>
      rw [hprecise] at h
      exact (find?_performStoreUnknownAddress h).mpr ⟨hv, hsurvive⟩
    | some c =>
      rw [hprecise] at h hrest
      rw [Survives, hprecise] at hsurvive
      apply ih h (find?_performStoreValue.mpr (.inl ⟨hsurvive, hv⟩))
      rw [mem_aliasfreeSlots_performStoreValue hsurvive]
      exact hrest rfl

/-- Every other entry is one of a stored register. -/
theorem storeRegisters_sound {regs : List ℕ} {pos : ℕ}
    (h : storeRegisters P MI regs pos σ = .ok σ') (hv : σ'.addr2const.find? a = some v) :
    (σ.addr2const.find? a = some v ∧
      SurvivesAccesses P (a ∈ σ.aliasfreeSlots) (getDataAccessAddress P MI σ) a regs.length pos) ∨
      ∃ (i : ℕ) (hi : i < regs.length) (addr : DataAddress),
        getDataAccessAddress P MI σ (pos + i) = .ok addr ∧ addr.precise? = some a ∧
          σ.reg2const.find? regs[i] = some v := by
  induction regs generalizing pos σ with
  | nil =>
    cases h
    exact .inl ⟨hv, trivial⟩
  | cons srcnr regs ih =>
    obtain ⟨addr, haddr, h⟩ := bind_eq_ok.mp h
    cases hprecise : addr.precise? with
    | none =>
      rw [hprecise] at h
      obtain ⟨hv, hsurvive⟩ := (find?_performStoreUnknownAddress h).mp hv
      left
      refine ⟨hv, fun addr' haddr' => ?_⟩
      cases haddr.symm.trans haddr'
      exact ⟨hsurvive, fun hsome => by simp [hprecise] at hsome⟩
    | some c =>
      rw [hprecise] at h
      rcases ih h with ⟨hfound, hrest⟩ | ⟨i, hi, addr', haddr', ha, hknown⟩
      · rcases find?_performStoreValue.mp hfound with ⟨hac, hv⟩ | ⟨rfl, hknown⟩
        · left
          refine ⟨hv, fun addr' haddr' => ?_⟩
          cases haddr.symm.trans haddr'
          rw [Survives, hprecise]
          rw [mem_aliasfreeSlots_performStoreValue hac] at hrest
          exact ⟨hac, fun _ => hrest⟩
        · exact .inr ⟨0, Nat.zero_lt_succ _, addr, haddr, hprecise, hknown⟩
      · refine .inr ⟨i + 1, Nat.succ_lt_succ hi, addr', ?_, ha, hknown⟩
        rw [← Nat.add_assoc, Nat.add_right_comm]
        exact haddr'

@[simp] theorem moveBase_addr2const (base : ℕ) (offset : Word) (σ : ConstantValueDomain) :
    (moveBase base offset σ).addr2const = σ.addr2const := by
  unfold moveBase
  split <;> rfl

@[simp] theorem forgetSymbol_addr2const (base : ℕ) (σ : ConstantValueDomain) :
    (forgetSymbol base σ).addr2const = σ.addr2const := rfl

@[simp] theorem moveBase_bot (base : ℕ) (offset : Word) (σ : ConstantValueDomain) :
    (moveBase base offset σ).bot = σ.bot := by
  unfold moveBase
  split <;> rfl

@[simp] theorem forgetSymbol_bot (base : ℕ) (σ : ConstantValueDomain) :
    (forgetSymbol base σ).bot = σ.bot := rfl

variable {mem : Word → BitVec 8}

/-- The default case keeps the entries that outlive the accesses. -/
theorem transferDefault_store (hstore : MI.opcode.mayStore = true)
    (h : transferDefault P MI σ = .ok σ') : σ'.bot = σ.bot ∧ ∀ a v,
      σ'.addr2const.find? a = some v ↔ σ.addr2const.find? a = some v ∧ SurvivesAll MI P σ a := by
  unfold transferDefault at h
  rw [hstore, if_pos rfl] at h
  obtain ⟨numAcc, hnumAcc, h⟩ := bind_eq_ok.mp h
  obtain ⟨σ₁, hforget, hdefs⟩ := bind_eq_ok.mp h
  cases hdefs
  constructor
  · exact forgetDefs_bot.trans (forgetAccesses_sameRegisters hforget).1
  · intro a v
    rw [forgetDefs_addr2const, find?_forgetAccesses (fun _ _ => rfl) hforget]
    simp only [SurvivesAll, hnumAcc, Except.ok.injEq, forall_eq']

theorem tracks_default (hstore : MI.opcode.mayStore = true)
    (h : transferDefault P MI σ = .ok σ') : TracksStore σ σ' (SurvivesAll MI P σ) mem := by
  obtain ⟨hbot, hfind⟩ := transferDefault_store hstore h
  constructor
  · exact hbot
  · intro a v hv hsurvives
    exact (hfind a v).mpr ⟨hv, hsurvives⟩
  · intro a v hv
    exact .inl ((hfind a v).mp hv)

theorem tracks_STRi12 {src base : ℕ} {imm : ℤ} (hσ : σ.Describes s.toMachineState)
    (hop : MI.opcode = .STRi12 src base imm) (h : transferSTRi12 P MI src σ = .ok σ') :
    TracksStore σ σ' (SurvivesAll MI P σ)
      (write s.mem (target s (.i12 base imm)) (bytesOf (s.regs src))) := by
  have hmode : MI.opcode.addrMode = some (.i12 base imm) := by rw [hop]; rfl
  have hnum : MI.opcode.getNumOfDataAccesses = .ok 1 := by rw [hop]; rfl
  obtain ⟨addr, haddr, h⟩ := bind_eq_ok.mp h
  have hall (a : Word) : SurvivesAll MI P σ a ↔ Survives P (a ∈ σ.aliasfreeSlots) addr a := by
    simp [SurvivesAll, hnum, SurvivesAccesses, haddr]
  cases hprecise : addr.precise? with
  | none =>
    rw [hprecise] at h
    constructor
    · exact (performStoreUnknownAddress_sameRegisters h).1
    · intro a v hv hsurvives
      exact (find?_performStoreUnknownAddress h).mpr ⟨hv, (hall a).mp hsurvives⟩
    · intro a v hv
      obtain ⟨hv, hsurvives⟩ := (find?_performStoreUnknownAddress h).mp hv
      exact .inl ⟨hv, (hall a).mpr hsurvives⟩
  | some c =>
    rw [hprecise] at h
    cases h
    have hc := address_i12 hσ hmode haddr hprecise
    simp only [Survives, hprecise] at hall
    constructor
    · rfl
    · intro a v hv hsurvives
      exact find?_performStoreValue.mpr (.inl ⟨(hall a).mp hsurvives, hv⟩)
    · intro a v hv
      rcases find?_performStoreValue.mp hv with ⟨hac, hv⟩ | ⟨rfl, hknown⟩
      · exact .inl ⟨hv, (hall a).mpr hac⟩
      · right
        rw [← hc, wordAt_write_bytesOf]
        exact hσ.regs src v hknown

theorem tracks_STR_PRE_IMM {src base : ℕ} {imm : ℤ} (hop : MI.opcode = .STR_PRE_IMM src base imm)
    (h : transferSTR_PRE_IMM P MI base imm σ = .ok σ') :
    TracksStore σ σ' (SurvivesAll MI P σ) mem := by
  have hnum : MI.opcode.getNumOfDataAccesses = .ok 1 := by rw [hop]; rfl
  obtain ⟨addr, haddr, h⟩ := bind_eq_ok.mp h
  have hall (a : Word) : SurvivesAll MI P σ a ↔ Survives P (a ∈ σ.aliasfreeSlots) addr a := by
    simp [SurvivesAll, hnum, SurvivesAccesses, haddr]
  have hstore : ∃ σ₁, σ' = forgetSymbol base (moveBase base (BitVec.ofInt 32 imm) σ₁) ∧
      σ₁.bot = σ.bot ∧ ∀ a v, σ₁.addr2const.find? a = some v ↔
        σ.addr2const.find? a = some v ∧ Survives P (a ∈ σ.aliasfreeSlots) addr a := by
    cases hprecise : addr.precise? with
    | none =>
      rw [hprecise] at h
      obtain ⟨σ₁, hstore, h⟩ := bind_eq_ok.mp h
      cases h
      exact ⟨σ₁, rfl, (performStoreUnknownAddress_sameRegisters hstore).1,
        fun _ _ => find?_performStoreUnknownAddress hstore⟩
    | some c =>
      rw [hprecise] at h
      cases h
      refine ⟨_, rfl, rfl, fun a v => ?_⟩
      rw [Survives, hprecise]
      exact find?_performStoreUnknownValue
  obtain ⟨σ₁, rfl, hbot, hfind⟩ := hstore
  constructor
  · rw [forgetSymbol_bot, moveBase_bot, hbot]
  · intro a v hv hsurvives
    rw [forgetSymbol_addr2const, moveBase_addr2const, hfind]
    exact ⟨hv, (hall a).mp hsurvives⟩
  · intro a v hv
    rw [forgetSymbol_addr2const, moveBase_addr2const, hfind] at hv
    exact .inl ⟨hv.1, (hall a).mpr hv.2⟩

theorem tracks_STMDB_UPD {base : ℕ} {regs : RegList} (hσ : σ.Describes s.toMachineState)
    (hop : MI.opcode = .STMDB_UPD base regs) (h : transferSTMDB_UPD P MI base regs σ = .ok σ') :
    TracksStore σ σ' (SurvivesAll MI P σ)
      (write s.mem (target s (.mode4 .db base regs.regs.length))
        (regs.regs.flatMap fun r => bytesOf (s.regs r))) := by
  have hmode : MI.opcode.addrMode = some (.mode4 .db base regs.regs.length) := by rw [hop]; rfl
  have hnum : MI.opcode.getNumOfDataAccesses = .ok regs.regs.length := by rw [hop]; rfl
  obtain ⟨σ₁, hstore, h⟩ := bind_eq_ok.mp h
  cases h
  constructor
  · rw [forgetSymbol_bot, moveBase_bot, (storeRegisters_sameRegisters hstore).1]
  · intro a v hv hsurvives
    rw [forgetSymbol_addr2const, moveBase_addr2const]
    exact storeRegisters_kept hstore hv (hsurvives _ hnum)
  · intro a v hv
    rw [forgetSymbol_addr2const, moveBase_addr2const] at hv
    rcases storeRegisters_sound hstore hv with ⟨hv, hsurvives⟩ | ⟨i, hi, addr, haddr, ha, hknown⟩
    · refine .inl ⟨hv, fun numAcc hnumAcc => ?_⟩
      cases hnum.symm.trans hnumAcc
      exact hsurvives
    · right
      have hlen := regs.length_le
      rw [Nat.zero_add] at haddr
      rw [address_mode4 hσ hmode haddr ha, wordAt_write_words s.regs regs.regs (by omega) hi]
      exact hσ.regs _ v hknown

theorem tracks_store {mode : AddrMode} {bytes : List (BitVec 8)}
    (hσ : σ.Describes s.toMachineState) (hmode : MI.opcode.addrMode = some mode)
    (hbytes : storedBytes s MI.opcode = some bytes)
    (h : transferOpcode L.toStaticAddresses MI σ = .ok σ') :
    TracksStore σ σ' (SurvivesStore L MI σ) (write s.mem (target s mode) bytes) := by
  unfold transferOpcode at h
  unfold SurvivesStore
  cases hop : MI.opcode with
  | STRi12 src base imm =>
    rw [hop] at h hmode hbytes
    cases hmode
    cases hbytes
    exact tracks_STRi12 hσ hop h
  | STR_PRE_IMM src base imm =>
    rw [hop] at h
    exact tracks_STR_PRE_IMM hop h
  | STMDB_UPD base regs =>
    rw [hop] at h hmode hbytes
    cases hmode
    cases hbytes
    exact tracks_STMDB_UPD hσ hop h
  | VSTMDDB_UPD base regs =>
    rw [hop] at h
    cases h
    constructor
    · rw [forgetSymbol_bot, moveBase_bot]
    · intro a v hv _
      rw [forgetSymbol_addr2const, moveBase_addr2const]
      exact hv
    · intro a v hv
      rw [forgetSymbol_addr2const, moveBase_addr2const] at hv
      exact .inl ⟨hv, trivial⟩
  | STRBi12 | STRB_PRE_IMM | STR_POST_IMM | STRB_POST_IMM | STR_POST_REG | STRrs | STRBrs
  | STR_PRE_REG | STRB_PRE_REG | STRH | STRH_PRE | STRH_POST | STRD | VSTRS | VSTRD | STMIA
  | STMIB | STMDA | STMDB | STMIA_UPD | STMIB_UPD | STMDA_UPD | VSTMDIA | VSTMDIA_UPD =>
    rw [hop] at h
    exact tracks_default (by rw [hop]; rfl) h
  | _ =>
    rw [hop] at hbytes
    cases hbytes

theorem length_storedBytes_le {bytes : List (BitVec 8)}
    (hbytes : storedBytes s MI.opcode = some bytes) : bytes.length ≤ 2 ^ 32 := by
  have hsingle (regs : RegList) :
      (regs.regs.flatMap fun r => bytesOf (s.regs r)).length ≤ 2 ^ 32 := by
    have hlen := regs.length_le
    simp only [List.length_flatMap, length_bytesOf, List.map_const', List.sum_replicate,
      smul_eq_mul]
    omega
  have hdouble (regs : RegList) :
      (regs.regs.flatMap fun r => doubleBytes (s.fregs r)).length ≤ 2 ^ 32 := by
    have hlen := regs.length_le
    simp only [List.length_flatMap, doubleBytes, List.length_append, length_bytesOf,
      List.map_const', List.sum_replicate, smul_eq_mul]
    omega
  cases hop : MI.opcode with
  | STMIA | STMIB | STMDA | STMDB | STMIA_UPD | STMIB_UPD | STMDA_UPD | STMDB_UPD =>
    rw [hop] at hbytes
    cases hbytes
    exact hsingle _
  | VSTMDIA | VSTMDIA_UPD | VSTMDDB_UPD =>
    rw [hop] at hbytes
    cases hbytes
    exact hdouble _
  | _ =>
    rw [hop] at hbytes
    cases hbytes <;> simp [length_bytesOf, doubleBytes]

end Stores

section OtherInstructions

variable {P : StaticAddresses}

/-- Nothing is said about the memory that was not said before. -/
def KeepsMemory (σ σ' : ConstantValueDomain) : Prop :=
  σ'.bot = σ.bot ∧ σ'.addr2const = σ.addr2const

theorem loadRegisters_keepsMemory {base pos : ℕ} {regs : List ℕ}
    (h : loadRegisters P MI base regs pos σ = .ok σ') : KeepsMemory σ σ' := by
  induction regs generalizing pos σ with
  | nil =>
    cases h
    exact ⟨rfl, rfl⟩
  | cons destnr regs ih =>
    obtain ⟨_, _, h⟩ := bind_eq_ok.mp h
    obtain ⟨addr, _, h⟩ := bind_eq_ok.mp h
    cases hprecise : addr.precise? with
    | none =>
      simp only [hprecise] at h
      have hrest := ih h
      exact hrest
    | some c =>
      simp only [hprecise] at h
      have hrest := ih h
      exact hrest

theorem moveBase_keepsMemory (base : ℕ) (offset : Word) (σ : ConstantValueDomain) :
    KeepsMemory σ (moveBase base offset σ) := ⟨moveBase_bot _ _ _, moveBase_addr2const _ _ _⟩

theorem transferLDMIA_keepsMemory {base number : ℕ} {loaded : List ℕ}
    (h : transferLDMIA P MI base loaded number σ = .ok σ') : KeepsMemory σ σ' := by
  obtain ⟨σ₁, hload, h⟩ := bind_eq_ok.mp h
  cases h
  obtain ⟨hbot, hmem⟩ := loadRegisters_keepsMemory hload
  constructor
  · rw [forgetSymbol_bot, moveBase_bot, hbot]
  · rw [forgetSymbol_addr2const, moveBase_addr2const, hmem]

theorem transferLEApcrel_keepsMemory {dest : ℕ} {operand : MachineOperand}
    (h : transferLEApcrel P MI dest operand σ = .ok σ') : KeepsMemory σ σ' := by
  unfold transferLEApcrel at h
  split at h
  · obtain ⟨_, _, h⟩ := bind_eq_ok.mp h
    cases h
    exact ⟨rfl, rfl⟩
  · cases h
    exact ⟨rfl, rfl⟩

theorem transferMOVi16_keepsMemory {dest : ℕ} {operand : MachineOperand}
    (h : transferMOVi16 P dest operand σ = .ok σ') : KeepsMemory σ σ' := by
  obtain ⟨_, _, h⟩ := bind_eq_ok.mp h
  dsimp only at h
  split at h
  · cases h
    exact ⟨rfl, rfl⟩
  · split at h <;> cases h <;> exact ⟨rfl, rfl⟩
  · cases h
    exact ⟨rfl, rfl⟩
  · cases h
    exact ⟨rfl, rfl⟩

theorem transferMOVTi16_keepsMemory {dest : ℕ} {operand : MachineOperand}
    (h : transferMOVTi16 P dest operand σ = .ok σ') : KeepsMemory σ σ' := by
  obtain ⟨_, _, h⟩ := bind_eq_ok.mp h
  dsimp only at h
  split at h
  · split at h <;> cases h <;> exact ⟨rfl, rfl⟩
  · split at h <;> cases h <;> exact ⟨rfl, rfl⟩
  · cases h
    exact ⟨rfl, rfl⟩
  · cases h
    exact ⟨rfl, rfl⟩

theorem transferLDRcp_keepsMemory {dest cpi : ℕ} (h : transferLDRcp P MI dest cpi σ = .ok σ') :
    KeepsMemory σ σ' := by
  obtain ⟨cpaddress, _, h⟩ := bind_eq_ok.mp h
  cases h
  cases P.addr2symbol cpaddress <;> cases P.addr2values cpaddress <;> exact ⟨rfl, rfl⟩

theorem transferLDRi12_keepsMemory {dest : ℕ} (h : transferLDRi12 P MI dest σ = .ok σ') :
    KeepsMemory σ σ' := by
  obtain ⟨addr, _, h⟩ := bind_eq_ok.mp h
  split at h
  · split at h <;> cases h <;> exact ⟨rfl, rfl⟩
  · cases h
    exact ⟨rfl, rfl⟩

theorem transferLDRIndexed_keepsMemory {dest base : ℕ} {offset : Word}
    (h : transferLDRIndexed dest base offset σ = .ok σ') : KeepsMemory σ σ' := by
  obtain ⟨_, _, h⟩ := bind_eq_ok.mp h
  cases h
  exact moveBase_keepsMemory base offset σ

/-- Without a store, entries are never added. -/
def NoNewEntries (σ σ' : ConstantValueDomain) : Prop :=
  σ'.bot = σ.bot ∧ ∀ a v, σ'.addr2const.find? a = some v → σ.addr2const.find? a = some v

theorem KeepsMemory.noNewEntries (h : KeepsMemory σ σ') : NoNewEntries σ σ' :=
  ⟨h.1, fun a v hv => by rwa [h.2] at hv⟩

theorem transferDefault_noNewEntries (h : transferDefault P MI σ = .ok σ') :
    NoNewEntries σ σ' := by
  cases hstore : MI.opcode.mayStore with
  | true =>
    obtain ⟨hbot, hfind⟩ := transferDefault_store hstore h
    exact ⟨hbot, fun a v hv => ((hfind a v).mp hv).1⟩
  | false =>
    unfold transferDefault at h
    rw [hstore] at h
    cases h
    exact ⟨forgetDefs_bot, fun a v hv => by rwa [forgetDefs_addr2const] at hv⟩

theorem transferOpcode_noNewEntries (hbytes : storedBytes s MI.opcode = none)
    (h : transferOpcode P MI σ = .ok σ') : NoNewEntries σ σ' := by
  unfold transferOpcode at h
  cases hop : MI.opcode with
  | LEApcrel =>
    rw [hop] at h
    exact (transferLEApcrel_keepsMemory h).noNewEntries
  | MOVi | MVNi =>
    rw [hop] at h
    obtain ⟨_, _, h⟩ := bind_eq_ok.mp h
    cases h
    exact ⟨rfl, fun _ _ hv => hv⟩
  | MOVi16 =>
    rw [hop] at h
    exact (transferMOVi16_keepsMemory h).noNewEntries
  | MOVTi16 =>
    rw [hop] at h
    exact (transferMOVTi16_keepsMemory h).noNewEntries
  | MOVr | SUBri | ADDri | ADDrr | ADDrsi | BICri | BL | BL_pred =>
    rw [hop] at h
    cases h
    exact ⟨rfl, fun _ _ hv => hv⟩
  | LDRi12 =>
    rw [hop] at h
    exact (transferLDRi12_keepsMemory h).noNewEntries
  | LDRcp =>
    rw [hop] at h
    exact (transferLDRcp_keepsMemory h).noNewEntries
  | LDR_PRE_IMM | LDR_POST_IMM =>
    rw [hop] at h
    exact (transferLDRIndexed_keepsMemory h).noNewEntries
  | LDMIA_UPD | LDMIA_RET =>
    rw [hop] at h
    exact (transferLDMIA_keepsMemory h).noNewEntries
  | VLDMDIA_UPD | VLDMSIA_UPD =>
    rw [hop] at h
    cases h
    exact (moveBase_keepsMemory _ _ σ).noNewEntries
  | PLDi12 | PLDrs | other =>
    rw [hop] at h
    exact transferDefault_noNewEntries h
  | _ =>
    rw [hop] at hbytes
    cases hbytes

theorem loadWords_mem (mem : Word → BitVec 8) (regs : List ℕ) (addr : Word) (s : State) :
    (State.loadWords mem regs addr s).mem = s.mem := by
  induction regs generalizing addr s with
  | nil => rfl
  | cons destnr regs ih => exact ih _ _

/-- The memory after an instruction. -/
theorem execute_mem (hstep : Execute L MI s s') :
    (∃ mode bytes, MI.opcode.addrMode = some mode ∧ storedBytes s MI.opcode = some bytes ∧
      s'.mem = write s.mem (target s mode) bytes) ∨
    (storedBytes s MI.opcode = none ∧ (MI.opcode ≠ .other true → s'.mem = s.mem)) := by
  cases hstep with
  | store hmode hbytes hmem hregs => exact .inl ⟨_, _, hmode, hbytes, hmem⟩
  | other h hregs hmem =>
    right
    refine ⟨?_, hmem⟩
    cases hop : MI.opcode with
    | PLDi12 | PLDrs | other => rfl
    | _ =>
      rw [hop] at h
      cases h
  | ldmia h =>
    right
    rcases h with h | ⟨n, h⟩
    · exact ⟨by rw [h]; rfl, fun _ => loadWords_mem _ _ _ _⟩
    · exact ⟨by rw [h]; rfl, fun _ => loadWords_mem _ _ _ _⟩
  | vldm h =>
    right
    rcases h with ⟨n, h, _⟩ | ⟨n, h, _⟩
    · exact ⟨by rw [h]; rfl, fun _ => rfl⟩
    · exact ⟨by rw [h]; rfl, fun _ => rfl⟩
  | call h =>
    right
    rcases h with h | h
    · exact ⟨by rw [h]; rfl, fun _ => rfl⟩
    · exact ⟨by rw [h]; rfl, fun _ => rfl⟩
  | leapcrel h | movi h | movi16 h | movti16Imm h | movti16 h | mvni h | movr h | subri h
  | addri h | addrr h | addrsi h | bicri h | ldri12 h | ldrcp h | ldrPre h | ldrPost h =>
    right
    exact ⟨by rw [h]; rfl, fun _ => rfl⟩

end OtherInstructions

theorem transferOpcode_bot (hσ : σ.Describes s.toMachineState)
    (h : transferOpcode L.toStaticAddresses MI σ = .ok σ') : σ'.bot = false := by
  cases hbytes : storedBytes s MI.opcode with
  | none => exact (transferOpcode_noNewEntries hbytes h).1.trans hσ.reachable
  | some bytes =>
    have hmode : ∃ mode, MI.opcode.addrMode = some mode := by
      cases hop : MI.opcode with
      | _ =>
        rw [hop] at hbytes
        first
        | exact ⟨_, rfl⟩
        | cases hbytes
    obtain ⟨mode, hmode⟩ := hmode
    exact (tracks_store hσ hmode hbytes h).reachable.trans hσ.reachable

/-- A transfer is that of the opcode, joined with the element before it if the
instruction is predicated. -/
theorem transfer_spec (hσ : σ.Describes s.toMachineState)
    (h : transfer L.toStaticAddresses MI σ = .ok σ') :
    ∃ σ₁, transferOpcode L.toStaticAddresses MI (entered MI σ) = .ok σ₁ ∧ σ₁.bot = false ∧
      σ' = if MI.predicated then σ₁.join σ else σ₁ := by
  unfold transfer at h
  rw [hσ.reachable] at h
  obtain ⟨σ₀, henter, h⟩ := bind_eq_ok.mp h
  obtain ⟨_, _, henter⟩ := bind_eq_ok.mp henter
  obtain ⟨σ₁, hopcode, hjoin⟩ := bind_eq_ok.mp h
  cases henter
  cases hjoin
  exact ⟨σ₁, hopcode, transferOpcode_bot (describes_entered hσ) hopcode, rfl⟩

/-- The entries of a predicated transfer are those that were there before, too. -/
theorem find?_transfer {σ₁ : ConstantValueDomain} {a v : Word} (hσ : σ.bot = false)
    (hσ₁ : σ₁.bot = false) :
    (if MI.predicated then σ₁.join σ else σ₁).addr2const.find? a = some v ↔
      σ₁.addr2const.find? a = some v ∧ (MI.predicated → σ.addr2const.find? a = some v) := by
  cases MI.predicated with
  | false => simp
  | true =>
    rw [if_pos rfl, ConstantValueDomain.join, hσ, hσ₁]
    simp only [Bool.false_eq_true, if_false, OrderedMap.find?_agree, forall_const]

/-- The tracked memory is right after an instruction if and only if the instruction is
skipped or the condition holds before it. -/
theorem transfer_mem_iff (L : LinkedProgram) (MI : Instr) (σ σ' : ConstantValueDomain)
    (s s' : State) (executed : Bool) (hσ : σ.Describes s.toMachineState)
    (hstep : Step L MI s executed s') (htransfer : transfer L.toStaticAddresses MI σ = .ok σ') :
    (σ'.addr2const.Forall fun a v => wordAt s'.mem a = v) ↔
      (executed = true → MemoryExact L MI σ s) := by
  obtain ⟨σ₁, hopcode, hbot, rfl⟩ := transfer_spec hσ htransfer
  have hentered : (entered MI σ).Describes s.toMachineState := describes_entered hσ
  obtain ⟨params, hparams⟩ := entered_eq MI σ
  have hmem : (entered MI σ).addr2const = σ.addr2const := by rw [hparams]
  simp only [OrderedMap.Forall, find?_transfer hσ.reachable hbot]
  cases hstep with
  | skipped hpredicated =>
    simp only [Bool.false_eq_true, false_imp_iff, iff_true]
    rintro a v ⟨_, hv⟩
    exact hσ.mem a v (hv hpredicated)
  | executed h carry =>
    simp only [forall_const]
    rcases execute_mem h with ⟨mode, bytes, hmode, hbytes, hmem'⟩ | ⟨hbytes, hmem'⟩
    · have htracks := tracks_store hentered hmode hbytes hopcode
      have hlen := length_storedBytes_le hbytes
      rw [hmem']
      constructor
      · intro hright mode' bytes' hmode' hbytes' a ha hsurvives
        cases hmode.symm.trans hmode'
        cases hbytes.symm.trans hbytes'
        obtain ⟨v, hv⟩ := Option.isSome_iff_exists.mp ha
        rw [← wordAt_write_eq_iff hlen, hσ.mem a v hv]
        rw [← hmem] at hv
        exact hright a v ⟨htracks.kept a v hv hsurvives, fun _ => hmem ▸ hv⟩
      · rintro hexact a v ⟨hv, _⟩
        rcases htracks.sound a v hv with ⟨hv, hsurvives⟩ | hstored
        · rw [hmem] at hv
          have hharmless := hexact mode bytes hmode hbytes a (Option.isSome_of_mem hv) hsurvives
          rw [(wordAt_write_eq_iff hlen).mpr hharmless]
          exact hσ.mem a v hv
        · exact hstored
    · have hnew := (transferOpcode_noNewEntries hbytes hopcode).2
      have hother : MI.opcode ≠ .other true := by
        intro hop
        unfold transferOpcode at hopcode
        rw [hop] at hopcode
        unfold transferDefault at hopcode
        rw [hop] at hopcode
        cases hopcode
      rw [hmem' hother]
      constructor
      · intro _ mode' bytes' _ hbytes'
        cases hbytes.symm.trans hbytes'
      · rintro _ a v ⟨hv, _⟩
        have hv := hnew a v hv
        rw [hmem] at hv
        exact hσ.mem a v hv

theorem noAddresses_constPoolEntry {_function _index : ℕ} {a : Word}
    (h : (none : Option Word) = some a) : (0 : Word) = a := by
  cases h

/-- A program without globals and constants. -/
def noAddresses : LinkedProgram where
  arrayAnalysis := true
  glvar2addr _ := none
  getArraySize _ := 0
  cpe2addr _ _ := none
  addr2values _ := none
  addr2symbol _ := none
  address _ := 0
  constPoolEntry _ _ := 0
  address_eq h := nomatch h
  constPoolEntry_eq := @noAddresses_constPoolEntry

/-- r0 is one, r1 points to the second byte of the word at `0x1000`, which is zero. -/
def byteStoreState : State where
  regs r := if r = 1 then 0x1001 else 1
  fregs _ := 0
  mem _ := 0
  carry := false

def byteStoreElement : ConstantValueDomain where
  bot := false
  reg2const := OrderedMap.empty.insert 1 0x1001
  addr2const := OrderedMap.empty.insert 0x1000 0
  reg2symbol := .empty
  addr2symbol := .empty
  fnparam2symbol := .empty
  aliasfreeSlots := ∅

/-- `strb r0, [r1]` -/
def byteStore : Instr where
  opcode := .STRBi12 0 1 0
  defs := []
  memoperands := []
  function := 0
  functionEntry := none
  isCall := false
  predicated := false

theorem byteStoreElement_describes : byteStoreElement.Describes byteStoreState.toMachineState := by
  have hregs : (OrderedMap.empty : OrderedMap ℕ Word).Forall
      fun r v => byteStoreState.regs r = v := OrderedMap.forall_empty
  have hmem : (OrderedMap.empty : OrderedMap Word Word).Forall
      fun a v => wordAt byteStoreState.mem a = v := OrderedMap.forall_empty
  exact ⟨rfl, hregs.insert rfl, hmem.insert rfl⟩

/-- The state after the store. -/
def byteStored : State :=
  { byteStoreState with
    mem := write byteStoreState.mem (target byteStoreState (.i12 1 0))
      ((bytesOf (byteStoreState.regs 0)).take 1) }

theorem byteStore_step : Step noAddresses byteStore byteStoreState true
    { byteStored with carry := false } := by
  have hregs : RegistersAfterStore byteStore byteStoreState byteStored := fun _ _ => rfl
  have hmode : byteStore.opcode.addrMode = some (.i12 1 0) := rfl
  have hbytes : storedBytes byteStoreState byteStore.opcode =
    some ((bytesOf (byteStoreState.regs 0)).take 1) := rfl
  exact .executed (.store hmode hbytes rfl hregs) false

theorem byteStore_transfer :
    transfer noAddresses.toStaticAddresses byteStore byteStoreElement = .ok byteStoreElement := rfl

theorem transfer_mem_iff_byteStore :
    (byteStoreElement.addr2const.Forall fun a v => wordAt byteStored.mem a = v) ↔
      (true = true → MemoryExact noAddresses byteStore byteStoreElement byteStoreState) :=
  transfer_mem_iff noAddresses byteStore byteStoreElement byteStoreElement byteStoreState _ true
    byteStoreElement_describes byteStore_step byteStore_transfer

/-- A byte store into a tracked word keeps the old constant of the word. -/
theorem byteStore_overlooked : ¬ ∀ (L : LinkedProgram) (MI : Instr) (σ σ' : ConstantValueDomain)
    (s s' : State) (executed : Bool), σ.Describes s.toMachineState →
    Step L MI s executed s' → transfer L.toStaticAddresses MI σ = .ok σ' →
    σ'.addr2const.Forall fun a v => wordAt s'.mem a = v := by
  intro h
  have hright := h noAddresses byteStore byteStoreElement byteStoreElement byteStoreState _ true
    byteStoreElement_describes byteStore_step byteStore_transfer 0x1000 0 rfl
  exact absurd hright (by decide +kernel)

end ARM
end Llvmta
