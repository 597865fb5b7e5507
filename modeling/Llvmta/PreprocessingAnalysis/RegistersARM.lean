import Llvmta.PreprocessingAnalysis.TrackedMemoryARM

/-!
# Soundness of the registers on ARM

A symbol says that a register points into the data structure of a global variable;
it moves along when a constant is added to the pointer. `Regular` leaves out the
instructions whose transfer keeps or computes a wrong constant: the upper half of
an address on top of an upper half, addresses that are not known or have an offset,
decoded offsets that are added as they are encoded, loaded registers of a return,
implicit operands that are counted as registers, and initial values of variables
that have been overwritten.
-/

namespace Llvmta
namespace ARM

open Checked ByteMemory ConstantValueDomain

variable (L : LinkedProgram) (MI : Instr)

/-- A pointer into the data structure of a global variable, or just behind it. -/
def PointsInto (glvar : GlobalVariable) (w : Word) : Prop :=
  w - L.address (.globalVariable glvar) ≤ L.getArraySize glvar

/-- The constants and the symbols of registers are right. -/
structure RegistersDescribed (σ : ConstantValueDomain) (s : MachineState) : Prop where
  consts : σ.reg2const.Forall fun r v => s.regs r = v
  symbols : σ.reg2symbol.Forall fun r glvar => PointsInto L glvar (s.regs r)

/-- Everything that a reachable domain element says is right. -/
structure Described (σ : ConstantValueDomain) (s : MachineState) : Prop
    extends σ.Describes s where
  symbols : σ.reg2symbol.Forall fun r glvar => PointsInto L glvar (s.regs r)
  memSymbols : σ.addr2symbol.Forall fun a glvar => PointsInto L glvar (wordAt s.mem a)

/-- The value of an operand without offset is known, or nothing was known about the
destination. -/
def OperandKnown (σ : ConstantValueDomain) (dest : ℕ) : MachineOperand → Prop
  | .global (.globalVariable glvar) offset =>
    offset = 0 ∧ (L.glvar2addr glvar = none → σ.reg2const.find? dest = none)
  | .global (.function _) _ => σ.reg2const.find? dest = none
  | .cpi _ offset => offset = 0
  | _ => True

/-- A pointer that is moved stays in its data structure. -/
def PointerStays (σ : ConstantValueDomain) (src : ℕ) (moved : Word) : Prop :=
  ∀ glvar, σ.reg2symbol.find? src = some glvar → PointsInto L glvar moved

/-- The instruction is none of those that are left out, and the pointers that it moves
stay in their data structures. -/
def Regular (σ : ConstantValueDomain) (s : State) : Prop :=
  match MI.opcode with
  | .LEApcrel dest operand | .MOVi16 dest operand => OperandKnown L σ dest operand
  | .MOVTi16 dest operand =>
    OperandKnown L σ dest operand ∧
      (∀ v, σ.reg2const.find? dest = some v → 0xffff0000 &&& v = 0) ∧
        ∀ glvar offset, operand = .global (.globalVariable glvar) offset →
          0x0000ffff &&& s.regs dest = 0x0000ffff &&& L.address (.globalVariable glvar)
  | .LDRcp dest cpi =>
    (match L.addr2values (L.constPoolEntry MI.function cpi) with
      | some v => wordAt s.mem (L.constPoolEntry MI.function cpi) = v
      | none => σ.reg2const.find? dest = none) ∧
      ∀ glvar, L.addr2symbol (L.constPoolEntry MI.function cpi) = some glvar →
        PointsInto L glvar (wordAt s.mem (L.constPoolEntry MI.function cpi))
  | .LDRi12 _ base imm =>
    ∀ v, L.addr2values (s.regs base + i12Offset imm) = some v →
      wordAt s.mem (s.regs base + i12Offset imm) = v
  | .ADDri _ src imm => PointerStays L σ src (s.regs src + BitVec.ofInt 32 imm)
  | .SUBri _ src imm => PointerStays L σ src (s.regs src - BitVec.ofInt 32 imm)
  | .LDR_PRE_IMM _ base imm =>
    BitVec.ofInt 32 imm ≠ 0x80000000 ∧
      PointerStays L σ base (s.regs base + BitVec.ofInt 32 imm)
  | .LDR_POST_IMM _ base opc =>
    opc.isSub = false ∧ opc.shift = .no_shift ∧
      PointerStays L σ base (s.regs base + BitVec.ofNat 32 opc.offset.val)
  | .STR_PRE_IMM _ _ imm => BitVec.ofInt 32 imm ≠ 0x80000000
  | .LDMIA_RET base regs numImplicit =>
    numImplicit = 0 ∧ ∀ r ∈ regs.regs, r ≠ base ∧ σ.reg2const.find? r = none ∧
      σ.reg2symbol.find? r = none
  | .VLDMDIA_UPD _ _ numImplicit | .VLDMSIA_UPD _ _ numImplicit => numImplicit = 0
  | _ => True

variable {L MI} {σ σ' : ConstantValueDomain} {s s' : State}

theorem pointsInto_address (glvar : GlobalVariable) :
    PointsInto L glvar (L.address (.globalVariable glvar)) := by
  rw [PointsInto, BitVec.sub_self]
  exact Nat.zero_le _

theorem PointsInto.frame {dest : ℕ} (hframe : ∀ r, r ≠ dest → s'.regs r = s.regs r) (r : ℕ)
    (hr : r ≠ dest) (glvar : GlobalVariable) (h : PointsInto L glvar (s.regs r)) :
    PointsInto L glvar (s'.regs r) := by
  rw [hframe r hr]
  exact h

theorem Described.registers (h : Described L σ s.toMachineState) :
    RegistersDescribed L σ s.toMachineState := ⟨h.regs, h.symbols⟩

section Rules

variable {dest : ℕ} (h : RegistersDescribed L σ s.toMachineState)
  (hframe : ∀ r, r ≠ dest → s'.regs r = s.regs r)

include h hframe

/-- A register that is set, with what is known about its new value. -/
theorem RegistersDescribed.setRegister {value : Option Word} {sym : Option GlobalVariable}
    (hvalue : ∀ v, value = some v → s'.regs dest = v)
    (hsym : ∀ glvar, sym = some glvar → PointsInto L glvar (s'.regs dest)) :
    RegistersDescribed L (ARM.setRegister dest value sym σ) s'.toMachineState := by
  constructor
  · exact (h.consts.assign_iff fun r hr v hv => (hframe r hr).trans hv).mpr hvalue
  · exact (h.symbols.assign_iff (PointsInto.frame hframe)).mpr hsym

theorem RegistersDescribed.setValue {value : Option Word}
    (hvalue : ∀ v, value = some v → s'.regs dest = v) :
    RegistersDescribed L (ARM.setRegister dest value none σ) s'.toMachineState := by
  apply h.setRegister hframe hvalue
  intro glvar hglvar
  cases hglvar

theorem RegistersDescribed.setConst {value : Word} (hvalue : s'.regs dest = value) :
    RegistersDescribed L (ARM.setRegister dest (some value) none σ) s'.toMachineState := by
  apply h.setValue hframe
  intro v hv
  exact hvalue.trans (Option.some.inj hv)

theorem RegistersDescribed.forget :
    RegistersDescribed L (ARM.setRegister dest none none σ) s'.toMachineState := by
  apply h.setValue hframe
  intro v hv
  cases hv

/-- The symbol of a register is forgotten, its constant stays right or was not known. -/
theorem RegistersDescribed.eraseSymbol
    (hkeep : ∀ v, σ.reg2const.find? dest = some v → s'.regs dest = v) :
    RegistersDescribed L { σ with reg2symbol := σ.reg2symbol.erase dest } s'.toMachineState := by
  constructor
  · exact (h.consts.keep_iff fun r hr v hv => (hframe r hr).trans hv).mpr hkeep
  · exact h.symbols.erase (PointsInto.frame hframe)

theorem RegistersDescribed.moveBase_consts {offset : Word}
    (hbase : s'.regs dest = s.regs dest + offset) :
    (ARM.moveBase dest offset σ).reg2const.Forall fun r v => s'.regs r = v := by
  unfold ARM.moveBase
  split
  next value hvalue =>
    refine (h.consts.insert_iff fun r hr v hv => (hframe r hr).trans hv).mpr ?_
    rw [hbase, h.consts dest value hvalue]
  next hnone =>
    refine (h.consts.keep_iff fun r hr v hv => (hframe r hr).trans hv).mpr ?_
    intro v hv
    rw [hnone] at hv
    cases hv

/-- A base register that is moved, its symbol kept. -/
theorem RegistersDescribed.moveBase {offset : Word}
    (hbase : s'.regs dest = s.regs dest + offset)
    (hstays : PointerStays L σ dest (s.regs dest + offset)) :
    RegistersDescribed L (ARM.moveBase dest offset σ) s'.toMachineState := by
  have hsymbols : (ARM.moveBase dest offset σ).reg2symbol = σ.reg2symbol := by
    unfold ARM.moveBase
    split <;> rfl
  constructor
  · exact h.moveBase_consts hframe hbase
  · rw [hsymbols]
    apply (h.symbols.keep_iff (PointsInto.frame hframe)).mpr
    rw [hbase]
    exact hstays

/-- A base register that is moved, its symbol forgotten. -/
theorem RegistersDescribed.moveBaseForget {offset : Word}
    (hbase : s'.regs dest = s.regs dest + offset) :
    RegistersDescribed L (forgetSymbol dest (ARM.moveBase dest offset σ)) s'.toMachineState := by
  have hmove : forgetSymbol dest (ARM.moveBase dest offset σ) =
      { ARM.moveBase dest offset σ with reg2symbol := σ.reg2symbol.erase dest } := by
    unfold forgetSymbol ARM.moveBase
    split <;> rfl
  rw [hmove]
  constructor
  · exact h.moveBase_consts hframe hbase
  · exact h.symbols.erase (PointsInto.frame hframe)

end Rules

section Frame

variable (h : RegistersDescribed L σ s.toMachineState)

include h

theorem RegistersDescribed.setSymbol {dest : ℕ} {glvar : GlobalVariable}
    (hglvar : PointsInto L glvar (s.regs dest)) :
    RegistersDescribed L { σ with reg2symbol := σ.reg2symbol.insert dest glvar }
      s.toMachineState := ⟨h.consts, h.symbols.insert hglvar⟩

theorem RegistersDescribed.of_sameRegisters (hsame : SameRegisters σ σ')
    (hregs : s'.regs = s.regs) : RegistersDescribed L σ' s'.toMachineState := by
  obtain ⟨_, hconsts, hsymbols⟩ := hsame
  constructor
  · rw [hconsts, hregs]
    exact h.consts
  · rw [hsymbols, hregs]
    exact h.symbols

theorem RegistersDescribed.forgetDefs {defs : List Register}
    (hregs : ∀ r, .gpr r ∉ defs → s'.regs r = s.regs r) :
    RegistersDescribed L (ConstantValueDomain.forgetDefs defs σ) s'.toMachineState := by
  constructor
  · intro r v hv
    obtain ⟨hr, hv⟩ := find?_forgetDefs.mp hv
    rw [hregs r hr]
    exact h.consts r v hv
  · intro r glvar hglvar
    obtain ⟨hr, hglvar⟩ := findSymbol_forgetDefs.mp hglvar
    rw [hregs r hr]
    exact h.symbols r glvar hglvar

end Frame

/-- The upper half of a word may be put on top of a value without one. -/
theorem upper_or {upper value : Word} (hvalue : 0xffff0000 &&& value = 0) :
    upper ||| value = upper ||| (0x0000ffff &&& value) := by
  have hsplit : (0xffff0000 &&& value) ||| (0x0000ffff &&& value) = value := by
    rw [← BitVec.and_or_distrib_right]
    exact BitVec.allOnes_and
  rw [hvalue] at hsplit
  nth_rewrite 1 [← hsplit]
  rw [← BitVec.or_assoc]
  exact congrArg (· ||| (0x0000ffff &&& value)) BitVec.or_zero

section Moves

variable {dest : ℕ} {operand : MachineOperand}
  (h : RegistersDescribed L σ s.toMachineState)

include h

theorem LEApcrel_described (hregular : OperandKnown L σ dest operand)
    (htransfer : transferLEApcrel L.toStaticAddresses MI dest operand σ = .ok σ') :
    RegistersDescribed L σ'
      (s.setReg dest (L.operandValue MI.function operand)).toMachineState := by
  have hframe (r : ℕ) (hr : r ≠ dest) := s.setReg_regs_of_ne hr (L.operandValue MI.function operand)
  unfold transferLEApcrel at htransfer
  split at htransfer
  next cpi offset =>
    obtain ⟨cpeaddress, hcpe, htransfer⟩ := bind_eq_ok.mp htransfer
    cases htransfer
    cases (hregular : offset = 0)
    apply h.setConst hframe
    rw [State.setReg_regs_self, LinkedProgram.operandValue,
      L.constPoolEntry_eq (expect_eq_ok.mp hcpe), BitVec.ofInt_ofNat, BitVec.add_zero]
  · cases htransfer
    exact h.forget hframe

theorem MOVi16_described (hregular : OperandKnown L σ dest operand)
    (htransfer : transferMOVi16 L.toStaticAddresses dest operand σ = .ok σ') :
    RegistersDescribed L σ' (s.setReg dest
      (0x0000ffff &&& L.operandValue MI.function operand)).toMachineState := by
  have hframe (r : ℕ) (hr : r ≠ dest) :=
    s.setReg_regs_of_ne hr (0x0000ffff &&& L.operandValue MI.function operand)
  have hkeep (hnone : σ.reg2const.find? dest = none) : RegistersDescribed L
      { σ with reg2symbol := σ.reg2symbol.erase dest }
      (s.setReg dest (0x0000ffff &&& L.operandValue MI.function operand)).toMachineState := by
    apply h.eraseSymbol hframe
    intro v hv
    rw [hnone] at hv
    cases hv
  obtain ⟨_, _, htransfer⟩ := bind_eq_ok.mp htransfer
  cases operand with
  | imm imm =>
    cases htransfer
    exact h.setConst hframe (s.setReg_regs_self dest _)
  | global value offset =>
    cases value with
    | function =>
      cases htransfer
      exact hkeep hregular
    | globalVariable glvar =>
      obtain ⟨rfl, hunknown⟩ := hregular
      cases haddr : L.glvar2addr glvar with
      | none =>
        simp only [haddr] at htransfer
        cases htransfer
        exact hkeep (hunknown haddr)
      | some addr =>
        simp only [haddr] at htransfer
        cases htransfer
        show RegistersDescribed L (ARM.setRegister dest (some (0x0000ffff &&& addr)) none σ) _
        apply h.setConst hframe
        rw [State.setReg_regs_self, LinkedProgram.operandValue, L.address_eq haddr,
          BitVec.ofInt_ofNat, BitVec.add_zero]
  | cpi | other =>
    cases htransfer
    exact h.forget hframe

theorem MOVTi16_imm_described {imm : ℤ}
    (hhalf : ∀ v, σ.reg2const.find? dest = some v → 0xffff0000 &&& v = 0)
    (htransfer : transferMOVTi16 L.toStaticAddresses dest (.imm imm) σ = .ok σ') :
    RegistersDescribed L σ' (s.setReg dest (((0x0000ffff &&& BitVec.ofInt 32 imm) <<< 16) |||
      (0x0000ffff &&& s.regs dest))).toMachineState := by
  have hframe (r : ℕ) (hr : r ≠ dest) := s.setReg_regs_of_ne hr
    (((0x0000ffff &&& BitVec.ofInt 32 imm) <<< 16) ||| (0x0000ffff &&& s.regs dest))
  obtain ⟨_, _, htransfer⟩ := bind_eq_ok.mp htransfer
  cases hfind : σ.reg2const.find? dest with
  | none =>
    simp only [hfind] at htransfer
    cases htransfer
    apply h.eraseSymbol hframe
    intro v hv
    rw [hfind] at hv
    cases hv
  | some value =>
    simp only [hfind] at htransfer
    cases htransfer
    show RegistersDescribed L (ARM.setRegister dest
      (some (((0x0000ffff &&& BitVec.ofInt 32 imm) <<< 16) ||| value)) none σ) _
    apply h.setConst hframe
    rw [State.setReg_regs_self, upper_or (hhalf value hfind), h.consts dest value hfind]

theorem MOVTi16_described (himm : ∀ imm, operand ≠ .imm imm)
    (hknown : OperandKnown L σ dest operand)
    (hhalf : ∀ v, σ.reg2const.find? dest = some v → 0xffff0000 &&& v = 0)
    (hlower : ∀ glvar offset, operand = .global (.globalVariable glvar) offset →
      0x0000ffff &&& s.regs dest = 0x0000ffff &&& L.address (.globalVariable glvar))
    (htransfer : transferMOVTi16 L.toStaticAddresses dest operand σ = .ok σ') :
    RegistersDescribed L σ' (s.setReg dest ((0xffff0000 &&& L.operandValue MI.function operand) |||
      (0x0000ffff &&& s.regs dest))).toMachineState := by
  have hframe (r : ℕ) (hr : r ≠ dest) := s.setReg_regs_of_ne hr
    ((0xffff0000 &&& L.operandValue MI.function operand) ||| (0x0000ffff &&& s.regs dest))
  have hself := s.setReg_regs_self dest
    ((0xffff0000 &&& L.operandValue MI.function operand) ||| (0x0000ffff &&& s.regs dest))
  have hkeep (hnone : σ.reg2const.find? dest = none) := h.eraseSymbol hframe fun v hv => by
    rw [hnone] at hv
    cases hv
  obtain ⟨_, _, htransfer⟩ := bind_eq_ok.mp htransfer
  cases operand with
  | imm imm => exact absurd rfl (himm imm)
  | cpi | other =>
    cases htransfer
    exact h.forget hframe
  | global value offset =>
    cases value with
    | function =>
      cases htransfer
      exact hkeep hknown
    | globalVariable glvar =>
      obtain ⟨rfl, hunknown⟩ := hknown
      have haddress : L.operandValue MI.function (.global (.globalVariable glvar) 0) =
          L.address (.globalVariable glvar) := BitVec.add_zero _
      have hpoints : PointsInto L glvar ((s.setReg dest
          ((0xffff0000 &&& L.operandValue MI.function (.global (.globalVariable glvar) 0)) |||
            (0x0000ffff &&& s.regs dest))).regs dest) := by
        rw [hself, hlower glvar 0 rfl, haddress, ← BitVec.and_or_distrib_right]
        exact BitVec.allOnes_and.symm ▸ pointsInto_address glvar
      cases haddr : L.glvar2addr glvar with
      | none =>
        simp only [haddr] at htransfer
        cases htransfer
        exact (hkeep (hunknown haddr)).setSymbol hpoints
      | some addr =>
        cases hfind : σ.reg2const.find? dest with
        | none =>
          simp only [haddr, hfind] at htransfer
          cases htransfer
          exact (hkeep hfind).setSymbol hpoints
        | some value =>
          simp only [haddr, hfind] at htransfer
          cases htransfer
          have hconst : RegistersDescribed L
              (ARM.setRegister dest (some ((0xffff0000 &&& addr) ||| value)) none σ)
              (s.setReg dest ((0xffff0000 &&&
                L.operandValue MI.function (.global (.globalVariable glvar) 0)) |||
                  (0x0000ffff &&& s.regs dest))).toMachineState := by
            apply h.setConst hframe
            rw [hself, upper_or (hhalf value hfind), h.consts dest value hfind, haddress,
              L.address_eq haddr]
          exact hconst.setSymbol hpoints

theorem MOVr_described {src : ℕ} : RegistersDescribed L
    (ARM.setRegister dest (σ.reg2const.find? src) (σ.reg2symbol.find? src) σ)
    (s.setReg dest (s.regs src)).toMachineState := by
  apply h.setRegister (fun _ hr => s.setReg_regs_of_ne hr (s.regs src))
  · intro v hv
    rw [State.setReg_regs_self]
    exact h.consts src v hv
  · intro glvar hglvar
    rw [State.setReg_regs_self]
    exact h.symbols src glvar hglvar

theorem transferAdd_described {src : ℕ} {summand : Word}
    (hstays : PointerStays L σ src (s.regs src + summand)) : RegistersDescribed L
    (transferAdd dest src summand σ) (s.setReg dest (s.regs src + summand)).toMachineState := by
  apply h.setRegister (fun _ hr => s.setReg_regs_of_ne hr (s.regs src + summand))
  · intro v hv
    obtain ⟨value, hvalue, rfl⟩ := Option.map_eq_some_iff.mp hv
    rw [State.setReg_regs_self, h.consts src value hvalue]
  · intro glvar hglvar
    rw [State.setReg_regs_self]
    exact hstays glvar hglvar

/-- A value that is computed from the constants of two registers. -/
theorem binary_described {src src2 : ℕ} (f : Word → Word → Word) : RegistersDescribed L
    (ARM.setRegister dest
      ((σ.reg2const.find? src).bind fun a => (σ.reg2const.find? src2).map fun b => f a b) none σ)
    (s.setReg dest (f (s.regs src) (s.regs src2))).toMachineState := by
  apply h.setValue (fun _ hr => s.setReg_regs_of_ne hr (f (s.regs src) (s.regs src2)))
  intro v hv
  obtain ⟨a, ha, hv⟩ := Option.bind_eq_some_iff.mp hv
  obtain ⟨b, hb, rfl⟩ := Option.map_eq_some_iff.mp hv
  rw [State.setReg_regs_self, h.consts src a ha, h.consts src2 b hb]

end Moves

section Loads

theorem loadWords_regs_of_notMem {mem : Word → BitVec 8} {regs : List ℕ} {addr : Word} {r : ℕ}
    (hr : r ∉ regs) : (State.loadWords mem regs addr s).regs r = s.regs r := by
  induction regs generalizing addr s with
  | nil => rfl
  | cons destnr regs ih =>
    obtain ⟨hne, hr⟩ := List.ne_and_not_mem_of_not_mem_cons hr
    rw [State.loadWords, ih hr, State.setReg_regs_of_ne s hne]

/-- The base register may be set before or after the loads. -/
theorem loadWords_setReg {mem : Word → BitVec 8} {regs : List ℕ} {addr value : Word} {base : ℕ}
    (hbase : base ∉ regs) : State.loadWords mem regs addr (s.setReg base value) =
      (State.loadWords mem regs addr s).setReg base value := by
  induction regs generalizing addr s with
  | nil => rfl
  | cons destnr regs ih =>
    obtain ⟨hne, hbase⟩ := List.ne_and_not_mem_of_not_mem_cons hbase
    have hcomm : (s.setReg base value).setReg destnr (wordAt mem addr) =
        (s.setReg destnr (wordAt mem addr)).setReg base value := by
      rw [State.setReg, State.setReg, State.setReg, State.setReg]
      simp only [Function.update_comm hne.symm]
    rw [State.loadWords, State.loadWords, hcomm, ih hbase]

theorem LDRcp_described {dest cpi : ℕ} (h : RegistersDescribed L σ s.toMachineState)
    (hregular : match L.addr2values (L.constPoolEntry MI.function cpi) with
      | some v => wordAt s.mem (L.constPoolEntry MI.function cpi) = v
      | none => σ.reg2const.find? dest = none)
    (hsymbol : ∀ glvar, L.addr2symbol (L.constPoolEntry MI.function cpi) = some glvar →
      PointsInto L glvar (wordAt s.mem (L.constPoolEntry MI.function cpi)))
    (htransfer : transferLDRcp L.toStaticAddresses MI dest cpi σ = .ok σ') :
    RegistersDescribed L σ'
      (s.setReg dest (wordAt s.mem (L.constPoolEntry MI.function cpi))).toMachineState := by
  have hframe (r : ℕ) (hr : r ≠ dest) :=
    s.setReg_regs_of_ne hr (wordAt s.mem (L.constPoolEntry MI.function cpi))
  have hself := s.setReg_regs_self dest (wordAt s.mem (L.constPoolEntry MI.function cpi))
  obtain ⟨cpaddress, hcpe, htransfer⟩ := bind_eq_ok.mp htransfer
  have haddress := L.constPoolEntry_eq (expect_eq_ok.mp hcpe)
  -- whether there is a symbol does not matter for the constant
  have hvalue (σ₁ : ConstantValueDomain) (hσ₁ : σ₁ = match L.addr2values cpaddress with
      | some value => ARM.setRegister dest (some value) none σ
      | none => { σ with reg2symbol := σ.reg2symbol.erase dest }) :
      RegistersDescribed L σ₁
        (s.setReg dest (wordAt s.mem (L.constPoolEntry MI.function cpi))).toMachineState := by
    subst hσ₁
    cases hvalues : L.addr2values cpaddress with
    | some value =>
      rw [haddress, hvalues] at hregular
      exact h.setConst hframe (hself.trans (haddress ▸ hregular))
    | none =>
      rw [haddress, hvalues] at hregular
      apply h.eraseSymbol hframe
      intro v hv
      rw [hregular] at hv
      cases hv
  cases hsym : L.addr2symbol cpaddress with
  | none =>
    simp only [hsym] at htransfer
    cases htransfer
    apply hvalue
    cases L.addr2values cpaddress <;> rfl
  | some glvar =>
    simp only [hsym] at htransfer
    cases htransfer
    apply RegistersDescribed.setSymbol
    · apply hvalue
      cases L.addr2values cpaddress <;> rfl
    · rw [hself]
      exact hsymbol glvar (haddress ▸ hsym)

theorem LDRi12_described {dest base : ℕ} {imm : ℤ} (h : Described L σ s.toMachineState)
    (hop : MI.opcode = .LDRi12 dest base imm)
    (hregular : ∀ v, L.addr2values (s.regs base + i12Offset imm) = some v →
      wordAt s.mem (s.regs base + i12Offset imm) = v)
    (htransfer : transferLDRi12 L.toStaticAddresses MI dest σ = .ok σ') :
    RegistersDescribed L σ'
      (s.setReg dest (wordAt s.mem (s.regs base + i12Offset imm))).toMachineState := by
  have hframe (r : ℕ) (hr : r ≠ dest) :=
    s.setReg_regs_of_ne hr (wordAt s.mem (s.regs base + i12Offset imm))
  have hself := s.setReg_regs_self dest (wordAt s.mem (s.regs base + i12Offset imm))
  have hmode : MI.opcode.addrMode = some (.i12 base imm) := by
    rw [hop]
    rfl
  have herased : ConstantValueDomain.Describes
      { σ with reg2symbol := σ.reg2symbol.erase dest } s.toMachineState :=
    ⟨h.reachable, h.regs, h.mem⟩
  obtain ⟨addr, haddr, htransfer⟩ := bind_eq_ok.mp htransfer
  cases hprecise : addr.precise? with
  | none =>
    simp only [hprecise] at htransfer
    cases htransfer
    exact h.registers.forget hframe
  | some concreteAddr =>
    have htarget : concreteAddr = s.regs base + i12Offset imm :=
      address_i12 herased hmode haddr hprecise
    subst htarget
    simp only [hprecise] at htransfer
    cases hvalues : L.addr2values (s.regs base + i12Offset imm) with
    | some value =>
      simp only [hvalues] at htransfer
      cases htransfer
      exact h.registers.setConst hframe (hself.trans (hregular value hvalues))
    | none =>
      simp only [hvalues] at htransfer
      cases htransfer
      apply h.registers.setRegister hframe
      · intro v hv
        rw [hself]
        exact h.mem _ v hv
      · intro glvar hglvar
        rw [hself]
        exact h.memSymbols _ glvar hglvar

/-- The registers of a load multiple, with a base register that is moved later. -/
theorem loadRegisters_described {base pos : ℕ} {regs : List ℕ} {submode : AMSubMode}
    {numopreglist : ℕ} (h : Described L σ s.toMachineState)
    (hmode : MI.opcode.addrMode = some (.mode4 submode base numopreglist))
    (hload : loadRegisters L.toStaticAddresses MI base regs pos σ = .ok σ') :
    base ∉ regs ∧ Described L σ' (State.loadWords s.mem regs
      (target s (.mode4 submode base numopreglist) + BitVec.ofNat 32 pos * 4) s).toMachineState := by
  induction regs generalizing pos σ s with
  | nil =>
    cases hload
    exact ⟨List.not_mem_nil, h⟩
  | cons destnr regs ih =>
    obtain ⟨_, hassert, hload⟩ := bind_eq_ok.mp hload
    have hne : destnr ≠ base := by simpa using of_assertThat hassert
    obtain ⟨addr, haddr, hload⟩ := bind_eq_ok.mp hload
    have hforget : RegistersDescribed L (setRegister destnr none none σ) s.toMachineState :=
      h.registers.forget fun _ _ => rfl
    have hnext : Described L (setRegister destnr none none σ) s.toMachineState :=
      ⟨⟨h.reachable, hforget.consts, h.mem⟩, hforget.symbols, h.memSymbols⟩
    have haddress : target s (.mode4 submode base numopreglist) + BitVec.ofNat 32 pos * 4 + 4 =
        target s (.mode4 submode base numopreglist) + BitVec.ofNat 32 (pos + 1) * 4 := by
      rw [BitVec.ofNat_add, BitVec.add_assoc, BitVec.add_mul]
      rfl
    have hframe (w : Word) (r : ℕ) (hr : r ≠ destnr) := s.setReg_regs_of_ne hr w
    -- the registers that follow are loaded in the state after this load
    have hstep (σ₁ : ConstantValueDomain) (w : Word)
        (hσ₁ : Described L σ₁ (s.setReg destnr w).toMachineState)
        (hrest : loadRegisters L.toStaticAddresses MI base regs (pos + 1) σ₁ = .ok σ') :
        base ∉ destnr :: regs ∧ Described L σ' (State.loadWords s.mem regs
          (target s (.mode4 submode base numopreglist) + BitVec.ofNat 32 (pos + 1) * 4)
          (s.setReg destnr w)).toMachineState := by
      obtain ⟨hbase, hdescribed⟩ := ih hσ₁ hrest
      rw [target, State.setReg_regs_of_ne s hne.symm] at hdescribed
      exact ⟨List.not_mem_cons_of_ne_of_not_mem hne.symm hbase, hdescribed⟩
    rw [State.loadWords, haddress]
    cases hprecise : addr.precise? with
    | none =>
      simp only [hprecise] at hload
      apply hstep _ _ _ hload
      have hregs := h.registers.forget (hframe (wordAt s.mem
        (target s (.mode4 submode base numopreglist) + BitVec.ofNat 32 pos * 4)))
      exact ⟨⟨h.reachable, hregs.consts, h.mem⟩, hregs.symbols, h.memSymbols⟩
    | some concreteAddr =>
      cases address_mode4 hnext.toDescribes hmode haddr hprecise
      simp only [hprecise] at hload
      apply hstep _ _ _ hload
      have hself := s.setReg_regs_self destnr (wordAt s.mem
        (target s (.mode4 submode base numopreglist) + BitVec.ofNat 32 pos * 4))
      have hregs := hnext.registers.setRegister (hframe _)
        (fun v hv => hself.trans (hnext.mem _ v hv))
        (fun glvar hglvar => hself.symm ▸ hnext.memSymbols _ glvar hglvar)
      exact ⟨⟨h.reachable, hregs.consts, h.mem⟩, hregs.symbols, h.memSymbols⟩

theorem LDMIA_UPD_described {base : ℕ} {regs : RegList} (h : Described L σ s.toMachineState)
    (hop : MI.opcode = .LDMIA_UPD base regs)
    (htransfer : transferLDMIA L.toStaticAddresses MI base regs.regs regs.regs.length σ = .ok σ') :
    RegistersDescribed L σ' (State.loadWords s.mem regs.regs (s.regs base)
      (s.setReg base
        (s.regs base + 4 * BitVec.ofNat 32 regs.regs.length))).toMachineState := by
  obtain ⟨σ₁, hload, htransfer⟩ := bind_eq_ok.mp htransfer
  cases htransfer
  have hmode : MI.opcode.addrMode = some (.mode4 .ia base regs.regs.length) := by
    rw [hop]
    rfl
  obtain ⟨hbase, hloaded⟩ := loadRegisters_described h hmode hload
  have haddress : target s (.mode4 .ia base regs.regs.length) + BitVec.ofNat 32 0 * 4 =
      s.regs base := BitVec.add_zero _
  rw [haddress] at hloaded
  rw [loadWords_setReg hbase]
  apply hloaded.registers.moveBaseForget fun r hr => State.setReg_regs_of_ne _ hr _
  rw [State.setReg_regs_self, loadWords_regs_of_notMem hbase]

theorem LDMIA_RET_described {base : ℕ} {regs : RegList}
    (h : RegistersDescribed L σ s.toMachineState)
    (hregular : ∀ r ∈ regs.regs, r ≠ base ∧ σ.reg2const.find? r = none ∧
      σ.reg2symbol.find? r = none)
    (htransfer : transferLDMIA L.toStaticAddresses MI base [] regs.regs.length σ = .ok σ') :
    RegistersDescribed L σ' (State.loadWords s.mem regs.regs (s.regs base)
      (s.setReg base
        (s.regs base + 4 * BitVec.ofNat 32 regs.regs.length))).toMachineState := by
  cases htransfer
  have hbase : base ∉ regs.regs := fun hmem => (hregular base hmem).1 rfl
  have hloaded : RegistersDescribed L σ
      (State.loadWords s.mem regs.regs (s.regs base) s).toMachineState := by
    constructor
    · intro r v hv
      have hr : r ∉ regs.regs := fun hmem => by
        rw [(hregular r hmem).2.1] at hv
        cases hv
      rw [loadWords_regs_of_notMem hr]
      exact h.consts r v hv
    · intro r glvar hglvar
      have hr : r ∉ regs.regs := fun hmem => by
        rw [(hregular r hmem).2.2] at hglvar
        cases hglvar
      rw [loadWords_regs_of_notMem hr]
      exact h.symbols r glvar hglvar
  rw [loadWords_setReg hbase]
  apply hloaded.moveBaseForget fun r hr => State.setReg_regs_of_ne _ hr _
  rw [State.setReg_regs_self, loadWords_regs_of_notMem hbase]

/-- A load with an indexed base register, which keeps its symbol. -/
theorem transferLDRIndexed_described {dest base : ℕ} {offset value : Word}
    (h : RegistersDescribed L σ s.toMachineState)
    (hstays : PointerStays L σ base (s.regs base + offset))
    (htransfer : transferLDRIndexed dest base offset σ = .ok σ') : RegistersDescribed L σ'
      ((s.setReg base (s.regs base + offset)).setReg dest value).toMachineState := by
  obtain ⟨_, _, htransfer⟩ := bind_eq_ok.mp htransfer
  cases htransfer
  have hmoved : RegistersDescribed L (moveBase base offset σ)
      (s.setReg base (s.regs base + offset)).toMachineState :=
    h.moveBase (fun r hr => s.setReg_regs_of_ne hr _) (s.setReg_regs_self base _) hstays
  exact hmoved.forget fun r hr => State.setReg_regs_of_ne _ hr value

end Loads

section Stores

/-- The registers after a store, and whatever else the default case handles. -/
theorem transferDefault_described (h : RegistersDescribed L σ s.toMachineState)
    (hregs : ∀ r, .gpr r ∉ MI.defs → s'.regs r = s.regs r)
    (htransfer : transferDefault L.toStaticAddresses MI σ = .ok σ') :
    RegistersDescribed L σ' s'.toMachineState := by
  unfold transferDefault at htransfer
  cases hstore : MI.opcode.mayStore with
  | false =>
    rw [hstore] at htransfer
    cases htransfer
    exact h.forgetDefs hregs
  | true =>
    rw [hstore, if_pos rfl] at htransfer
    obtain ⟨numAcc, _, htransfer⟩ := bind_eq_ok.mp htransfer
    obtain ⟨σ₁, hforget, htransfer⟩ := bind_eq_ok.mp htransfer
    cases htransfer
    have hstored : RegistersDescribed L σ₁ s.toMachineState :=
      h.of_sameRegisters (forgetAccesses_sameRegisters hforget) rfl
    exact hstored.forgetDefs hregs

theorem transferSTRi12_described {src : ℕ} (h : RegistersDescribed L σ s.toMachineState)
    (hregs : s'.regs = s.regs)
    (htransfer : transferSTRi12 L.toStaticAddresses MI src σ = .ok σ') :
    RegistersDescribed L σ' s'.toMachineState := by
  obtain ⟨addr, _, htransfer⟩ := bind_eq_ok.mp htransfer
  cases hprecise : addr.precise? with
  | none =>
    rw [hprecise] at htransfer
    exact h.of_sameRegisters (performStoreUnknownAddress_sameRegisters htransfer) hregs
  | some concreteAddr =>
    rw [hprecise] at htransfer
    cases htransfer
    exact h.of_sameRegisters (performStoreValue_sameRegisters _ _ _ _ σ) hregs

theorem transferSTR_PRE_IMM_described {base : ℕ} {imm : ℤ}
    (h : RegistersDescribed L σ s.toMachineState)
    (hregs : s'.regs = (s.setReg base (s.regs base + BitVec.ofInt 32 imm)).regs)
    (htransfer : transferSTR_PRE_IMM L.toStaticAddresses MI base imm σ = .ok σ') :
    RegistersDescribed L σ' s'.toMachineState := by
  obtain ⟨addr, _, htransfer⟩ := bind_eq_ok.mp htransfer
  have hstore : ∃ σ₁, SameRegisters σ σ₁ ∧
      σ' = forgetSymbol base (moveBase base (BitVec.ofInt 32 imm) σ₁) := by
    cases hprecise : addr.precise? with
    | none =>
      rw [hprecise] at htransfer
      obtain ⟨σ₁, hstore, htransfer⟩ := bind_eq_ok.mp htransfer
      cases htransfer
      exact ⟨σ₁, performStoreUnknownAddress_sameRegisters hstore, rfl⟩
    | some concreteAddr =>
      rw [hprecise] at htransfer
      cases htransfer
      exact ⟨σ.performStoreUnknownValue concreteAddr, ⟨rfl, rfl, rfl⟩, rfl⟩
  obtain ⟨σ₁, hsame, rfl⟩ := hstore
  have hstored : RegistersDescribed L σ₁ s.toMachineState := h.of_sameRegisters hsame rfl
  apply hstored.moveBaseForget
  · intro r hr
    rw [hregs, State.setReg_regs_of_ne s hr]
  · rw [hregs, State.setReg_regs_self]

theorem transferSTMDB_UPD_described {base : ℕ} {regs : RegList}
    (h : RegistersDescribed L σ s.toMachineState)
    (hregs : s'.regs = (s.setReg base (s.regs base - 4 * BitVec.ofNat 32 regs.regs.length)).regs)
    (htransfer : transferSTMDB_UPD L.toStaticAddresses MI base regs σ = .ok σ') :
    RegistersDescribed L σ' s'.toMachineState := by
  obtain ⟨σ₁, hstore, htransfer⟩ := bind_eq_ok.mp htransfer
  cases htransfer
  have hstored : RegistersDescribed L σ₁ s.toMachineState :=
    h.of_sameRegisters (storeRegisters_sameRegisters hstore) rfl
  apply hstored.moveBaseForget
  · intro r hr
    rw [hregs, State.setReg_regs_of_ne s hr]
  · rw [hregs, State.setReg_regs_self, BitVec.sub_eq_add_neg]

end Stores

theorem store_described {bytes : List (BitVec 8)}
    (h : RegistersDescribed L σ s.toMachineState) (hregular : Regular L MI σ s)
    (hbytes : storedBytes s MI.opcode = some bytes) (hregs : RegistersAfterStore MI s s')
    (htransfer : transferOpcode L.toStaticAddresses MI σ = .ok σ') :
    RegistersDescribed L σ' s'.toMachineState := by
  unfold RegistersAfterStore at hregs
  unfold transferOpcode at htransfer
  unfold Regular at hregular
  cases hop : MI.opcode with
  | STRi12 src base imm =>
    rw [hop] at hregs htransfer
    exact transferSTRi12_described h hregs htransfer
  | STR_PRE_IMM src base imm =>
    rw [hop] at hregs htransfer hregular
    have hoffset : i12Offset imm = BitVec.ofInt 32 imm := if_neg hregular
    refine transferSTR_PRE_IMM_described h ?_ htransfer
    rw [← hoffset]
    exact hregs
  | STMDB_UPD base regs =>
    rw [hop] at hregs htransfer
    exact transferSTMDB_UPD_described h hregs htransfer
  | VSTMDDB_UPD base regs =>
    rw [hop] at hregs htransfer
    cases htransfer
    apply h.moveBaseForget
    · intro r hr
      rw [hregs, State.setReg_regs_of_ne s hr]
    · rw [hregs, State.setReg_regs_self, BitVec.sub_eq_add_neg]
  | STRBi12 | STRB_PRE_IMM | STR_POST_IMM | STRB_POST_IMM | STR_POST_REG | STRrs | STRBrs
  | STR_PRE_REG | STRB_PRE_REG | STRH | STRH_PRE | STRH_POST | STRD | VSTRS | VSTRD | STMIA
  | STMIB | STMDA | STMDB | STMIA_UPD | STMIB_UPD | STMDA_UPD | VSTMDIA | VSTMDIA_UPD =>
    rw [hop] at hregs htransfer
    exact transferDefault_described h hregs htransfer
  | _ =>
    rw [hop] at hbytes
    cases hbytes

/-- One case for each kind of instruction that is executed. -/
theorem transferOpcode_described (h : Described L σ s.toMachineState)
    (hregular : Regular L MI σ s) (hstep : Execute L MI s s')
    (htransfer : transferOpcode L.toStaticAddresses MI σ = .ok σ') :
    RegistersDescribed L σ' s'.toMachineState := by
  have hregs := h.registers
  cases hstep with
  | store hmode hbytes hmem hafter =>
    exact store_described hregs hregular hbytes hafter htransfer
  | other hop hafter hmem =>
    unfold transferOpcode at htransfer
    cases hopcode : MI.opcode with
    | PLDi12 | PLDrs | other =>
      rw [hopcode] at htransfer
      exact transferDefault_described hregs hafter htransfer
    | _ =>
      rw [hopcode] at hop
      cases hop
  | leapcrel hop =>
    simp only [transferOpcode, Regular, hop] at htransfer hregular
    exact LEApcrel_described hregs hregular htransfer
  | movi16 hop =>
    simp only [transferOpcode, Regular, hop] at htransfer hregular
    exact MOVi16_described hregs hregular htransfer
  | movti16Imm hop =>
    simp only [transferOpcode, Regular, hop] at htransfer hregular
    exact MOVTi16_imm_described hregs hregular.2.1 htransfer
  | movti16 hop himm =>
    simp only [transferOpcode, Regular, hop] at htransfer hregular
    obtain ⟨hknown, hhalf, hlower⟩ := hregular
    exact MOVTi16_described hregs himm hknown hhalf hlower htransfer
  | movi hop =>
    simp only [transferOpcode, hop] at htransfer
    obtain ⟨_, _, htransfer⟩ := bind_eq_ok.mp htransfer
    cases htransfer
    exact hregs.setConst (fun r hr => s.setReg_regs_of_ne hr _) (s.setReg_regs_self _ _)
  | mvni hop =>
    simp only [transferOpcode, hop] at htransfer
    obtain ⟨_, _, htransfer⟩ := bind_eq_ok.mp htransfer
    cases htransfer
    apply hregs.setConst fun r hr => s.setReg_regs_of_ne hr _
    rw [State.setReg_regs_self]
    exact BitVec.xor_allOnes.symm
  | movr hop =>
    simp only [transferOpcode, hop] at htransfer
    cases htransfer
    exact MOVr_described hregs
  | addri hop =>
    simp only [transferOpcode, Regular, hop] at htransfer hregular
    cases htransfer
    exact transferAdd_described hregs hregular
  | subri hop =>
    simp only [transferOpcode, Regular, hop] at htransfer hregular
    cases htransfer
    rw [BitVec.sub_eq_add_neg] at hregular ⊢
    exact transferAdd_described hregs hregular
  | addrr hop =>
    simp only [transferOpcode, hop] at htransfer
    cases htransfer
    exact binary_described hregs (· + ·)
  | addrsi hop =>
    simp only [transferOpcode, hop] at htransfer
    cases htransfer
    split_ifs with hlsl
    · subst hlsl
      exact binary_described hregs fun a b => a + b <<< _
    · exact hregs.forget fun r hr => s.setReg_regs_of_ne hr _
  | bicri hop =>
    simp only [transferOpcode, hop] at htransfer
    cases htransfer
    apply hregs.setValue fun r hr => s.setReg_regs_of_ne hr _
    intro v hv
    obtain ⟨value, hvalue, rfl⟩ := Option.map_eq_some_iff.mp hv
    rw [State.setReg_regs_self, hregs.consts _ value hvalue]
  | ldri12 hop =>
    simp only [transferOpcode, Regular, hop] at htransfer hregular
    exact LDRi12_described h hop hregular htransfer
  | ldrcp hop =>
    simp only [transferOpcode, Regular, hop] at htransfer hregular
    exact LDRcp_described hregs hregular.1 hregular.2 htransfer
  | ldrPre hop =>
    simp only [transferOpcode, Regular, hop] at htransfer hregular
    obtain ⟨himm, hstays⟩ := hregular
    rw [i12Offset, if_neg himm]
    exact transferLDRIndexed_described hregs hstays htransfer
  | ldrPost hop =>
    simp only [transferOpcode, Regular, hop] at htransfer hregular
    obtain ⟨hsub, hshift, hstays⟩ := hregular
    rw [AM2Opc.getImm, hsub, hshift] at htransfer
    rw [addOrSub, hsub, if_neg Bool.false_ne_true]
    apply transferLDRIndexed_described hregs hstays
    simpa [ShiftOpc.toNat] using htransfer
  | ldmia hop =>
    rcases hop with hop | ⟨numImplicit, hop⟩
    · simp only [transferOpcode, hop] at htransfer
      exact LDMIA_UPD_described h hop htransfer
    · simp only [transferOpcode, Regular, hop] at htransfer hregular
      obtain ⟨rfl, hregular⟩ := hregular
      exact LDMIA_RET_described hregs hregular htransfer
  | vldm hop fregs =>
    rcases hop with ⟨numImplicit, hop, rfl⟩ | ⟨numImplicit, hop, rfl⟩
    · simp only [transferOpcode, Regular, hop] at htransfer hregular
      subst hregular
      cases htransfer
      apply hregs.moveBaseForget
      · exact fun r hr => s.setReg_regs_of_ne hr _
      · exact s.setReg_regs_self _ _
    · simp only [transferOpcode, Regular, hop] at htransfer hregular
      subst hregular
      cases htransfer
      apply hregs.moveBaseForget
      · exact fun r hr => s.setReg_regs_of_ne hr _
      · exact s.setReg_regs_self _ _
  | call hop returnAddress =>
    have hlr := hregs.forget fun r (hr : r ≠ 14) => s.setReg_regs_of_ne hr returnAddress
    rcases hop with hop | hop
    · simp only [transferOpcode, hop] at htransfer
      cases htransfer
      exact hlr
    · simp only [transferOpcode, hop] at htransfer
      cases htransfer
      exact hlr

/-- A program in which all globals are arrays of two words. -/
def wordPairs : LinkedProgram :=
  { noAddresses with
    getArraySize := fun _ => 8
    address := fun _ => 0x1000
    address_eq := fun h => nomatch h
    constPoolEntry_eq := fun h => nomatch h }

/-- r0 points to the first word. -/
def pairState : State where
  regs _ := 0x1000
  fregs _ := 0
  mem _ := 0
  carry := false

def pairElement : ConstantValueDomain where
  bot := false
  reg2const := .empty
  addr2const := .empty
  reg2symbol := OrderedMap.empty.insert 0 0
  addr2symbol := .empty
  fnparam2symbol := .empty
  aliasfreeSlots := ∅

/-- `add r1, r0, #4` -/
def pairAdd : Instr where
  opcode := .ADDri 1 0 4
  defs := [.gpr 1]
  memoperands := []
  function := 0
  functionEntry := none
  isCall := false
  predicated := false

theorem pairElement_described : Described wordPairs pairElement pairState.toMachineState := by
  have hsymbols : (OrderedMap.empty : OrderedMap ℕ GlobalVariable).Forall
      fun r glvar => PointsInto wordPairs glvar (pairState.regs r) := OrderedMap.forall_empty
  exact ⟨⟨rfl, OrderedMap.forall_empty, OrderedMap.forall_empty⟩,
    hsymbols.insert (pointsInto_address 0), OrderedMap.forall_empty⟩

theorem pairAdd_regular : Regular wordPairs pairAdd pairElement pairState := by
  intro glvar _
  show (pairState.regs 0 + BitVec.ofInt 32 4 - 0x1000 : Word) ≤ 8
  decide

theorem pairAdd_step : Step wordPairs pairAdd pairState true
    { pairState.setReg 1 (pairState.regs 0 + BitVec.ofInt 32 4) with carry := false } :=
  .executed (.addri rfl) false

theorem pairAdd_transfer : transfer wordPairs.toStaticAddresses pairAdd pairElement =
    .ok (transferAdd 1 0 (BitVec.ofInt 32 4) pairElement) := rfl

end ARM
end Llvmta
