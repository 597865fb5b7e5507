import Llvmta.PreprocessingAnalysis.MachineRISCV

/-!
# Soundness of the constants on RISC-V

`Exact` is the condition under which a transfer keeps describing the state. It
excludes a write of anything but zero to x0; addresses whose lower twelve bits are
negative as an immediate or that have an offset; a stale entry of a register that
gets the address of a function; a load of a global variable that no longer has its
initial value; and a store into a tracked word under another address.
-/

namespace Llvmta
namespace RISCV

open Checked ByteMemory ConstantValueDomain State

variable (L : LinkedProgram) (MI : MachineInstr Opcode)

/-- The entry of a register, if it has one, is the value it gets. -/
def NotStale (σ : ConstantValueDomain) (dest : ℕ) (value : Word) : Prop :=
  ∀ v, σ.reg2const.find? dest = some v → result dest value = v

def LUIExact (dest : ℕ) (operand : MachineOperand) (σ : ConstantValueDomain) : Prop :=
  let value := upperImmediate L MI.function operand
  match operand with
  | .imm _ => dest = 0 → value = 0
  | .global (.globalVariable glvar) _ =>
    match L.glvar2addr glvar with
    | some addr => result dest value = 0xfffff000 &&& addr
    | none => NotStale σ dest value
  | .global (.function _) _ => NotStale σ dest value
  | .cpi cpi _ => result dest value = L.constPoolEntry MI.function cpi &&& 0xfffff000
  | .other _ => True

def ADDIExact (dest src : ℕ) (operand : MachineOperand) (σ : ConstantValueDomain) (s : State) :
    Prop :=
  let value := s.regs src + lowerImmediate L MI.function operand
  match operand with
  | .imm _ => dest = 0 → (σ.reg2const.find? src).isSome → value = 0
  | .global (.globalVariable glvar) _ =>
    match L.glvar2addr glvar with
    | some addr => (σ.reg2const.find? src).isSome →
        result dest value = s.regs src + (0x00000fff &&& addr)
    | none => True
  | .global (.function _) _ => NotStale σ dest value
  | .cpi cpi _ => result dest value = L.constPoolEntry MI.function cpi
  | .other _ => True

/-- A result that is written to x0 is zero. -/
def BinaryExact (dest src src2 : ℕ) (value : Word) (σ : ConstantValueDomain) : Prop :=
  dest = 0 → (σ.reg2const.find? src).isSome → (σ.reg2const.find? src2).isSome → value = 0

/-- The loaded word is the constant that is known for the address. -/
def LWExact (dest base : ℕ) (offset : MachineOperand) (σ : ConstantValueDomain) (s : State) :
    Prop :=
  let value := wordAt s.mem (s.regs base + lowerImmediate L MI.function offset)
  ∀ addr, getDataAccessAddress L.toStaticAddresses MI σ 0 = .ok addr →
    ∀ concreteAddr, addr.precise? = some concreteAddr →
    match L.addr2values concreteAddr with
    | some v => result dest value = v
    | none => ∀ v, σ.addr2const.find? concreteAddr = some v → result dest value = v

/-- The tracked words under other addresses keep their bytes, and the stored word
is where its entry says. -/
def SWExact (src base : ℕ) (offset : MachineOperand) (σ : ConstantValueDomain) (s : State) :
    Prop :=
  let target := s.regs base + lowerImmediate L MI.function offset
  let bytes := bytesOf (s.regs src)
  ∀ addr, getDataAccessAddress L.toStaticAddresses MI σ 0 = .ok addr →
    (∀ concreteAddr, addr.precise? = some concreteAddr → concreteAddr ≠ target →
      (σ.reg2const.find? src).isSome →
        wordAt (write s.mem target bytes) concreteAddr = s.regs src) ∧
    ∀ a, (σ.addr2const.find? a).isSome →
      Survives L.toStaticAddresses (a ∈ σ.aliasfreeSlots) addr a → Harmless s.mem target bytes a

/-- The tracked words under other addresses keep their bytes. -/
def StoreExact (base : ℕ) (offset : MachineOperand) (bytes : List (BitVec 8))
    (σ : ConstantValueDomain) (s : State) : Prop :=
  ∀ numAcc, MI.opcode.getNumOfDataAccesses = .ok numAcc →
    ∀ a, (σ.addr2const.find? a).isSome →
      SurvivesAccesses L.toStaticAddresses (a ∈ σ.aliasfreeSlots)
        (getDataAccessAddress L.toStaticAddresses MI σ) a numAcc 0 →
      Harmless s.mem (s.regs base + lowerImmediate L MI.function offset) bytes a

/-- The condition on an instruction, the domain element and the state before it. -/
def Exact (σ : ConstantValueDomain) (s : State) : Prop :=
  match MI.opcode with
  | .LUI dest operand => LUIExact L MI dest operand σ
  | .ADDI dest src operand => ADDIExact L MI dest src operand σ s
  | .ADD dest src src2 => BinaryExact dest src src2 (s.regs src + s.regs src2) σ
  | .SUB dest src src2 => BinaryExact dest src src2 (s.regs src - s.regs src2) σ
  | .LW dest base offset => LWExact L MI dest base offset σ s
  | .SW src base offset => SWExact L MI src base offset σ s
  | opcode =>
    match storedBytes s opcode with
    | some (base, offset, bytes) => StoreExact L MI base offset bytes σ s
    | none => True

variable {L MI} {σ σ' : ConstantValueDomain} {s s' : State}

theorem result_eq_self_iff {dest : ℕ} {value : Word} :
    result dest value = value ↔ (dest = 0 → value = 0) := by
  unfold result
  split_ifs with h
  · exact ⟨fun heq _ => heq.symm, fun hzero => (hzero h).symm⟩
  · exact ⟨fun _ hdest => absurd hdest h, fun _ => rfl⟩

/-- The immediate of LUI fills the upper 20 bits. -/
theorem lui_immediate (imm : ℤ) :
    (0x000fffff &&& BitVec.ofInt 32 imm) <<< 12 = BitVec.ofInt 20 imm ++ 0#12 := by
  have hwidth : BitVec.ofInt 20 imm = (BitVec.ofInt 32 imm).setWidth 20 := by
    apply BitVec.eq_of_toNat_eq
    rw [BitVec.toNat_setWidth, BitVec.toNat_ofInt, BitVec.toNat_ofInt]
    omega
  rw [hwidth]
  ext i hi
  rw [BitVec.getElem_append, BitVec.getElem_shiftLeft]
  by_cases h : i < 12
  · simp [h]
  · simp only [h, decide_false, Bool.not_false, Bool.true_and, dite_false]
    interval_cases i <;> simp

section Registers

variable {dest : ℕ} {value : Word} {consts : OrderedMap ℕ Word}
  {symbols : OrderedMap ℕ GlobalVariable} (hσ : σ.Describes s.toMachineState)

include hσ

/-- A result in a register changes nothing else that is described. -/
theorem describes_setReg_iff :
    ConstantValueDomain.Describes { σ with reg2const := consts, reg2symbol := symbols }
        (s.setReg dest value).toMachineState ↔
      consts.Forall fun r v => (s.setReg dest value).regs r = v := by
  constructor
  · intro h
    exact h.regs
  · intro h
    exact ⟨hσ.reachable, h, hσ.mem⟩

theorem describes_assign_iff {o : Option Word} :
    ConstantValueDomain.Describes
        { σ with reg2const := σ.reg2const.assign dest o, reg2symbol := symbols }
        (s.setReg dest value).toMachineState ↔ ∀ v, o = some v → result dest value = v := by
  rw [describes_setReg_iff hσ,
    hσ.regs.assign_iff fun r hr v hv => (s.setReg_regs_of_ne hr value).trans hv]
  simp only [setReg_regs_self]

theorem describes_insert_iff {v : Word} :
    ConstantValueDomain.Describes
        { σ with reg2const := σ.reg2const.insert dest v, reg2symbol := symbols }
        (s.setReg dest value).toMachineState ↔ result dest value = v := by
  have hassign : σ.reg2const.insert dest v = σ.reg2const.assign dest (some v) := rfl
  rw [hassign, describes_assign_iff hσ]
  simp only [Option.some_inj, forall_eq']

theorem describes_erase :
    ConstantValueDomain.Describes
      { σ with reg2const := σ.reg2const.erase dest, reg2symbol := symbols }
      (s.setReg dest value).toMachineState := by
  have hassign : σ.reg2const.erase dest = σ.reg2const.assign dest none := rfl
  rw [hassign, describes_assign_iff hσ]
  exact fun _ h => nomatch h

theorem describes_keep_iff :
    ConstantValueDomain.Describes { σ with reg2symbol := symbols }
      (s.setReg dest value).toMachineState ↔ NotStale σ dest value := by
  rw [describes_setReg_iff hσ,
    hσ.regs.keep_iff fun r hr v hv => (s.setReg_regs_of_ne hr value).trans hv]
  simp only [setReg_regs_self, NotStale]

end Registers

theorem LUI_iff {dest : ℕ} {operand : MachineOperand} (hσ : σ.Describes s.toMachineState)
    (h : transferLUI L.toStaticAddresses MI dest operand σ = .ok σ') :
    σ'.Describes (s.setReg dest (upperImmediate L MI.function operand)).toMachineState ↔
      LUIExact L MI dest operand σ := by
  obtain ⟨_, _, h⟩ := bind_eq_ok.mp h
  cases operand with
  | imm imm =>
    cases h
    calc _ ↔ result dest _ = (0x000fffff &&& BitVec.ofInt 32 imm) <<< 12 :=
          describes_insert_iff hσ
      _ ↔ LUIExact L MI dest (.imm imm) σ := by
          rw [lui_immediate]
          exact result_eq_self_iff
  | cpi cpi offset =>
    obtain ⟨cpeaddress, hcpe, h⟩ := bind_eq_ok.mp h
    cases h
    rw [LUIExact, L.constPoolEntry_eq (expect_eq_ok.mp hcpe)]
    exact describes_insert_iff hσ
  | global value offset =>
    cases value with
    | function index =>
      cases h
      exact describes_keep_iff hσ
    | globalVariable glvar =>
      cases haddr : L.glvar2addr glvar with
      | none =>
        simp only [haddr] at h
        cases h
        simp only [LUIExact, haddr]
        exact describes_keep_iff hσ
      | some addr =>
        simp only [haddr] at h
        cases h
        simp only [LUIExact, haddr]
        exact describes_insert_iff hσ
  | other value => cases h

theorem ADDI_iff {dest src : ℕ} {operand : MachineOperand} (hσ : σ.Describes s.toMachineState)
    (h : transferADDI L.toStaticAddresses MI dest src operand σ = .ok σ') :
    σ'.Describes
        (s.setReg dest (s.regs src + lowerImmediate L MI.function operand)).toMachineState ↔
      ADDIExact L MI dest src operand σ s := by
  have hsrc (v : Word) (hv : σ.reg2const.find? src = some v) : s.regs src = v := hσ.regs src v hv
  -- the value the analysis adds to the source register, if that one is known
  have hknown (c w : Word) :
      (∀ v, (σ.reg2const.find? src).map (fun value => value + c) = some v → w = v) ↔
        ((σ.reg2const.find? src).isSome → w = s.regs src + c) := by
    cases hfind : σ.reg2const.find? src with
    | none => simp
    | some v => simp [hsrc v hfind]
  cases operand with
  | imm imm =>
    cases h
    calc _ ↔ ∀ v, (σ.reg2const.find? src).map (fun value => value + BitVec.ofInt 32 imm) = some v →
            result dest (s.regs src + BitVec.ofInt 32 imm) = v :=
          describes_assign_iff hσ
      _ ↔ ADDIExact L MI dest src (.imm imm) σ s := by
          rw [hknown, result_eq_self_iff]
          exact imp.swap
  | cpi cpi offset =>
    obtain ⟨cpeaddress, hcpe, h⟩ := bind_eq_ok.mp h
    obtain ⟨value, _, h⟩ := bind_eq_ok.mp h
    obtain ⟨_, hassert, h⟩ := bind_eq_ok.mp h
    have heq := beq_iff_eq.mp (of_assertThat hassert)
    cases h
    rw [heq, ADDIExact, L.constPoolEntry_eq (expect_eq_ok.mp hcpe)]
    exact describes_insert_iff hσ
  | global value offset =>
    cases value with
    | function index =>
      cases h
      exact describes_keep_iff hσ
    | globalVariable glvar =>
      cases haddr : L.glvar2addr glvar with
      | none =>
        simp only [transferADDI, haddr] at h
        cases h
        simp only [ADDIExact, haddr, iff_true]
        exact describes_erase hσ
      | some addr =>
        simp only [transferADDI, haddr] at h
        obtain ⟨_, _, h⟩ := bind_eq_ok.mp h
        cases h
        simp only [ADDIExact, haddr]
        rw [← hknown]
        exact describes_assign_iff hσ
  | other value => cases h

theorem binary_iff {isSub : Bool} {dest src src2 : ℕ} {binop : Word → Word → Word}
    (hσ : σ.Describes s.toMachineState)
    (h : performBinaryOperation isSub dest src src2 binop σ = .ok σ') :
    σ'.Describes (s.setReg dest (binop (s.regs src) (s.regs src2))).toMachineState ↔
      BinaryExact dest src src2 (binop (s.regs src) (s.regs src2)) σ := by
  obtain ⟨_, _, h⟩ := bind_eq_ok.mp h
  cases h
  calc _ ↔ ∀ v, ((σ.reg2const.find? src).bind fun a => (σ.reg2const.find? src2).map (binop a)) =
          some v → result dest (binop (s.regs src) (s.regs src2)) = v :=
        describes_assign_iff hσ
    _ ↔ BinaryExact dest src src2 (binop (s.regs src) (s.regs src2)) σ := by
        unfold BinaryExact
        cases hsrc : σ.reg2const.find? src with
        | none => simp
        | some a =>
          cases hsrc2 : σ.reg2const.find? src2 with
          | none => simp
          | some b =>
            have ha : s.regs src = a := hσ.regs src a hsrc
            have hb : s.regs src2 = b := hσ.regs src2 b hsrc2
            rw [ha, hb]
            simp [result_eq_self_iff]

theorem LW_iff {dest base : ℕ} {offset : MachineOperand} (hσ : σ.Describes s.toMachineState)
    (h : transferLW L.toStaticAddresses MI dest σ = .ok σ') :
    σ'.Describes (s.setReg dest
        (wordAt s.mem (s.regs base + lowerImmediate L MI.function offset))).toMachineState ↔
      LWExact L MI dest base offset σ s := by
  obtain ⟨addr, haddr, h⟩ := bind_eq_ok.mp h
  simp only [LWExact, haddr, Except.ok.injEq, forall_eq']
  cases hprecise : addr.precise? with
  | none =>
    rw [hprecise] at h
    cases h
    simp only [reduceCtorEq, false_imp_iff, implies_true, iff_true]
    exact describes_erase hσ
  | some concreteAddr =>
    simp only [hprecise] at h
    simp only [Option.some_inj, forall_eq']
    cases hvalue : L.addr2values concreteAddr with
    | none =>
      simp only [hvalue] at h
      cases h
      exact describes_assign_iff hσ
    | some value =>
      simp only [hvalue] at h
      cases h
      exact describes_insert_iff hσ

section Memory

variable {target : Word} {bytes : List (BitVec 8)}

/-- After a store the surviving entries are described if the store is harmless to them. -/
theorem forall_survivors_iff (hσ : σ.Describes s.toMachineState) (hlen : bytes.length ≤ 2 ^ 32)
    {survives : Word → Prop} :
    (∀ a v, σ.addr2const.find? a = some v ∧ survives a →
      wordAt (write s.mem target bytes) a = v) ↔
      ∀ a, (σ.addr2const.find? a).isSome → survives a → Harmless s.mem target bytes a := by
  constructor
  · intro h a ha hsurvives
    obtain ⟨v, hv⟩ := Option.isSome_iff_exists.mp ha
    rw [← wordAt_write_eq_iff hlen, h a v ⟨hv, hsurvives⟩]
    exact (hσ.mem a v hv).symm
  · rintro h a v ⟨hv, hsurvives⟩
    have hharmless := h a (Option.isSome_of_mem hv) hsurvives
    rw [(wordAt_write_eq_iff hlen).mpr hharmless]
    exact hσ.mem a v hv

/-- A store is described if the memory is, whatever registers are forgotten. -/
theorem describes_store_iff (hσ : σ.Describes s.toMachineState) (hbot : σ'.bot = σ.bot)
    (hregs : ∀ r v, σ'.reg2const.find? r = some v → σ.reg2const.find? r = some v) :
    σ'.Describes (s.store target bytes).toMachineState ↔
      σ'.addr2const.Forall fun a v => wordAt (write s.mem target bytes) a = v := by
  constructor
  · intro h
    exact h.mem
  · intro h
    exact ⟨hbot.trans hσ.reachable, fun r v hv => hσ.regs r v (hregs r v hv), h⟩

theorem SW_iff {src base : ℕ} {offset : MachineOperand} (hσ : σ.Describes s.toMachineState)
    (h : transferSW L.toStaticAddresses MI src σ = .ok σ') :
    σ'.Describes (s.store (s.regs base + lowerImmediate L MI.function offset)
        (bytesOf (s.regs src))).toMachineState ↔ SWExact L MI src base offset σ s := by
  have hlen : (bytesOf (s.regs src)).length ≤ 2 ^ 32 := by
    rw [length_bytesOf]
    decide
  obtain ⟨addr, haddr, h⟩ := bind_eq_ok.mp h
  simp only [SWExact, haddr, Except.ok.injEq, forall_eq']
  rw [← forall_survivors_iff hσ hlen]
  cases hprecise : addr.precise? with
  | none =>
    rw [hprecise] at h
    obtain ⟨hbot, hregs, _⟩ := performStoreUnknownAddress_sameRegisters h
    rw [describes_store_iff hσ hbot (by simp [hregs])]
    simp [OrderedMap.Forall, find?_performStoreUnknownAddress h]
  | some concreteAddr =>
    simp only [hprecise] at h
    cases h
    obtain ⟨hbot, hregs, _⟩ := performStoreValue_sameRegisters MI.memoperands concreteAddr
      (σ.reg2const.find? src) (σ.reg2symbol.find? src) σ
    rw [describes_store_iff hσ hbot (by simp [hregs]), performStoreValue,
      OrderedMap.forall_assign]
    simp only [Option.some_inj, forall_eq', Survives, hprecise]
    apply and_congr
    · constructor
      · intro hstored _ hsrc
        obtain ⟨v, hv⟩ := Option.isSome_iff_exists.mp hsrc
        rw [hstored v hv]
        exact (hσ.regs src v hv).symm
      · intro hstored v hv
        rw [← hσ.regs src v hv]
        by_cases htarget : concreteAddr = s.regs base + lowerImmediate L MI.function offset
        · rw [htarget]
          exact wordAt_write_bytesOf _
        · exact hstored htarget (Option.isSome_of_mem hv)
    · constructor
      · rintro hkept a v ⟨hv, ha⟩
        exact hkept a ha v hv
      · intro hkept a ha v hv
        exact hkept a v ⟨hv, ha⟩

theorem length_storedBytes {base : ℕ} {offset : MachineOperand}
    (h : storedBytes s MI.opcode = some (base, offset, bytes)) : bytes.length ≤ 2 ^ 32 := by
  cases hopcode : MI.opcode with
  | SW | FSW | FSD | SB | SH =>
    rw [hopcode] at h
    cases h
    simp [length_bytesOf]
  | _ =>
    rw [hopcode] at h
    cases h

theorem store_iff {base : ℕ} {offset : MachineOperand} (hσ : σ.Describes s.toMachineState)
    (hbytes : storedBytes s MI.opcode = some (base, offset, bytes))
    (h : transferDefault L.toStaticAddresses MI σ = .ok σ') :
    σ'.Describes (s.store (s.regs base + lowerImmediate L MI.function offset)
      bytes).toMachineState ↔ StoreExact L MI base offset bytes σ s := by
  have hstore : MI.opcode.mayStore = true := by
    cases hopcode : MI.opcode with
    | SW | FSW | FSD | SB | SH => rfl
    | _ =>
      rw [hopcode] at hbytes
      cases hbytes
  unfold transferDefault at h
  rw [hstore, if_pos rfl] at h
  obtain ⟨numAcc, hnumAcc, h⟩ := bind_eq_ok.mp h
  obtain ⟨σ₁, hforget, hdefs⟩ := bind_eq_ok.mp h
  obtain ⟨hbot, hregs, _⟩ := forgetAccesses_sameRegisters hforget
  cases hdefs
  rw [describes_store_iff hσ (forgetDefs_bot.trans hbot), forgetDefs_addr2const]
  · simp only [OrderedMap.Forall, find?_forgetAccesses (fun _ _ => rfl) hforget,
      forall_survivors_iff hσ (length_storedBytes hbytes), StoreExact, hnumAcc, Except.ok.injEq,
      forall_eq']
  · intro r v hv
    rw [← hregs]
    exact (find?_forgetDefs.mp hv).2

end Memory

/-- The entry that is added for x0 is right. -/
theorem Describes.subscriptZero (hσ : σ.Describes s.toMachineState) :
    (subscriptZero σ).Describes s.toMachineState := by
  unfold RISCV.subscriptZero
  split
  · exact hσ
  · exact ⟨hσ.reachable, OrderedMap.forall_insert.mpr ⟨s.zero, fun r _ v hv => hσ.regs r v hv⟩,
      hσ.mem⟩

/-- Opcodes that are not modelled further set only registers that are forgotten. -/
theorem describes_other (hσ : σ.Describes s.toMachineState) (hopcode : MI.opcode.isUninterpreted)
    (hregs : ∀ r, .gpr r ∉ MI.defs → s'.regs r = s.regs r)
    (hmem : MI.opcode.mayStore = false → s'.mem = s.mem)
    (h : transferDefault L.toStaticAddresses MI σ = .ok σ') : σ'.Describes s'.toMachineState := by
  unfold transferDefault at h
  cases hstore : MI.opcode.mayStore with
  | true =>
    cases hop : MI.opcode with
    | other mayStore =>
      rw [hop] at h hstore
      cases hstore
      cases h
    | FLW | FLD =>
      rw [hop] at hstore
      cases hstore
    | _ =>
      rw [hop] at hopcode
      cases hopcode
  | false =>
    rw [hstore] at h
    cases h
    refine ⟨forgetDefs_bot.trans hσ.reachable, ?_, ?_⟩
    · intro r v hv
      obtain ⟨hr, hv⟩ := find?_forgetDefs.mp hv
      rw [hregs r hr]
      exact hσ.regs r v hv
    · rw [forgetDefs_addr2const, hmem hstore]
      exact hσ.mem

/-- A transfer keeps describing the state after an instruction if and only if the
condition holds before it. -/
theorem transfer_describes_iff (L : LinkedProgram) (MI : MachineInstr Opcode)
    (σ σ' : ConstantValueDomain) (s s' : State) (hσ : σ.Describes s.toMachineState)
    (hstep : Step L MI s s') (htransfer : transfer L.toStaticAddresses MI σ = .ok σ') :
    σ'.Describes s'.toMachineState ↔ Exact L MI (subscriptZero σ) s := by
  have hzero := Describes.subscriptZero hσ
  unfold transfer at htransfer
  rw [hσ.reachable] at htransfer
  obtain ⟨_, _, h⟩ := bind_eq_ok.mp htransfer
  unfold Exact
  cases hstep with
  | lui hop =>
    rw [hop] at h ⊢
    exact LUI_iff hzero h
  | addi hop =>
    rw [hop] at h ⊢
    exact ADDI_iff hzero h
  | add hop =>
    rw [hop] at h ⊢
    exact binary_iff hzero h
  | sub hop =>
    rw [hop] at h ⊢
    exact binary_iff hzero h
  | lw hop =>
    rw [hop] at h ⊢
    exact LW_iff hzero h
  | call hop returnAddress =>
    rw [hop] at h ⊢
    cases h
    simp only [storedBytes, iff_true]
    exact describes_erase hzero
  | store hbytes =>
    cases hop : MI.opcode with
    | SW src base offset =>
      rw [hop] at h hbytes
      cases hbytes
      exact SW_iff hzero h
    | FSW | FSD | SB | SH =>
      rw [hop] at h
      simp only
      rw [← hop, hbytes]
      exact store_iff hzero hbytes h
    | _ =>
      rw [hop] at hbytes
      cases hbytes
  | other hop hregs hmem =>
    cases hopcode : MI.opcode with
    | FLW | FLD | other =>
      rw [hopcode] at h
      simp only [storedBytes, iff_true]
      exact describes_other hzero hop hregs hmem h
    | _ =>
      rw [hopcode] at hop
      cases hop

/-- A program with one function at `0x20000` and nothing else. -/
def oneFunction : LinkedProgram where
  arrayAnalysis := true
  glvar2addr _ := none
  getArraySize _ := 0
  cpe2addr _ _ := none
  addr2values _ := none
  addr2symbol _ := none
  address _ := 0x20000
  constPoolEntry _ _ := 0
  address_eq h := nomatch h
  constPoolEntry_eq h := nomatch h

def State.initial : State := ⟨⟨fun _ => 0, fun _ => 0, fun _ => 0⟩, rfl⟩

/-- x0 and x10 are known to be zero. -/
def zeroInTen : ConstantValueDomain where
  bot := false
  reg2const := (OrderedMap.empty.insert 0 0).insert 10 0
  addr2const := .empty
  reg2symbol := .empty
  addr2symbol := .empty
  fnparam2symbol := .empty
  aliasfreeSlots := ∅

theorem zeroInTen_describes : zeroInTen.Describes State.initial.toMachineState := by
  have hregs : (OrderedMap.empty : OrderedMap ℕ Word).Forall fun _ v => (0 : Word) = v :=
    OrderedMap.forall_empty
  exact ⟨rfl, (hregs.insert rfl).insert rfl, OrderedMap.forall_empty⟩

/-- `lui x10, operand` -/
def luiTen (operand : MachineOperand) : MachineInstr Opcode := ⟨.LUI 10 operand, [.gpr 10], [], 0⟩

theorem transfer_describes_iff_immediate : ∃ (σ' : ConstantValueDomain) (s' : State),
    Step oneFunction (luiTen (.imm 0x12345)) State.initial s' ∧
      (σ'.Describes s'.toMachineState ↔
        Exact oneFunction (luiTen (.imm 0x12345)) (subscriptZero zeroInTen) State.initial) := by
  have hstep := Step.lui (s := State.initial) (L := oneFunction)
    (rfl : (luiTen (.imm 0x12345)).opcode = .LUI 10 (.imm 0x12345))
  exact ⟨_, _, hstep, transfer_describes_iff oneFunction (luiTen (.imm 0x12345)) zeroInTen _
    State.initial _ zeroInTen_describes hstep rfl⟩

/-- The address of a function leaves the old constant in the map. -/
theorem luiOfFunction_stale : ¬ ∀ (L : LinkedProgram) (MI : MachineInstr Opcode)
    (σ σ' : ConstantValueDomain) (s s' : State), σ.Describes s.toMachineState →
    Step L MI s s' → transfer L.toStaticAddresses MI σ = .ok σ' →
    σ'.Describes s'.toMachineState := by
  intro h
  have hstep := Step.lui (s := State.initial) (L := oneFunction)
    (rfl : (luiTen (.global (.function 0) 0)).opcode = .LUI 10 (.global (.function 0) 0))
  have hdescribes := h oneFunction (luiTen (.global (.function 0) 0)) zeroInTen zeroInTen
    State.initial _ zeroInTen_describes hstep rfl
  have hten : (0x20000 : Word) = 0 := hdescribes.regs 10 0 rfl
  exact absurd hten (by decide)

end RISCV
end Llvmta
