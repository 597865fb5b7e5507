import Llvmta.LLVMPasses.TimingAnalysisMain
import Llvmta.PreprocessingAnalysis.MachineState

/-!
# Loop bounds from expressions over arguments

The number of iterations of a loop may be an expression over the arguments of its function. Its
value in a context is computed from the constants that are known at the entry of the function,
in unsigned numbers of 32 bits. An argument is read from the register that the calling
convention assigns to it.
-/

namespace Llvmta

/-- The types of arguments; an integer has a size in bits. -/
inductive ArgType where
  | integer (Size : ℕ)
  | float
  | double
  | otherFloatingPoint
  | pointer
  | other
  deriving DecidableEq, Repr

inductive FloatABI where
  | Default
  | Soft
  | Hard
  deriving DecidableEq, Repr

structure FunctionSignature where
  arch : ArchType
  FloatABIType : FloatABI
  args : List ArgType

/-- The kinds of expressions that are not evaluated. -/
inductive OtherSCEVType where
  | scAddExpr
  | scMulExpr
  | scUMaxExpr
  | scSMaxExpr
  | scTruncate
  | scZeroExtend
  | scSignExtend
  | scAddRecExpr
  | scUMinExpr
  | scSMinExpr
  | scPtrToInt
  | scCouldNotCompute
  /-- a value that is not an argument, or an argument that is not an integer -/
  | scUnknown
  deriving DecidableEq, Repr

/-- Expressions of a width over the arguments of a function. -/
inductive SCEV (F : FunctionSignature) (w : ℕ) : Type
  | scConstant (getValue : BitVec w)
  | scUDivExpr (LHS RHS : SCEV F w)
  | integerArgument (ArgNo : ℕ) (type : F.args[ArgNo]? = some (.integer w))
  | other (type : OtherSCEVType)

/-- The effect of a division by zero is undefined. -/
def divideUnsigned (Lhsval Rhsval : Word) : Except Fault (Option Word) :=
  if Rhsval = 0 then .error .outOfBounds else .ok (some (Lhsval / Rhsval))

/-- The 64-bit value of a constant, cut down to 32 bits. -/
def cutConstant (BitWidth : ℕ) (TmpValue : ℤ) : Option Word :=
  if BitWidth > 64 then none
  else if TmpValue ≥ 2 ^ 31 - 1 ∨ TmpValue ≤ -2 ^ 31 then none
  else some (BitVec.ofInt 32 TmpValue)

namespace FunctionSignature

variable (F : FunctionSignature)

/-- The general purpose registers behind those of an argument. -/
def gprsAfter (Argnum : ℕ) : ArgType → Except Fault ℕ
  | .integer Size => do
    assertThat (decide (Size ≤ 32) || Size == 64) "Unexpected integer size"
    .ok (if Size ≤ 32 then Argnum + 1 else Argnum + 2 + Argnum % 2)
  | .float => .ok (if F.FloatABIType ≠ .Hard then Argnum + 1 else Argnum)
  | .double => .ok (if F.FloatABIType ≠ .Hard then Argnum + 2 + Argnum % 2 else Argnum)
  | .otherFloatingPoint =>
    if F.FloatABIType ≠ .Hard then .error (.assertion "Unexpected floating point type")
    else .ok Argnum
  | .pointer => .ok (Argnum + 1)
  | .other => .error (.assertion "Unknown argument type")

def getValueByArgument (ArgNo : ℕ) (CVDom : ConstantValueDomain) : Except Fault (Option Word) :=
  match F.arch with
  | .arm => do
    assertThat (F.FloatABIType == .Hard || F.FloatABIType == .Soft)
      "FloatAbi == FloatABI::Hard || FloatAbi == FloatABI::Soft"
    let Argnum ← (F.args.take ArgNo).foldlM F.gprsAfter 0
    if Argnum < 4 then
      if CVDom.bot || CVDom.isTop (.gpr Argnum) then .ok none
      else .ok (CVDom.reg2const.find? Argnum)
    else .ok none
  | _ => .ok none

def getSCEVBoundFromCVDomain (CVDom : ConstantValueDomain) {w : ℕ} :
    SCEV F w → Except Fault (Option Word)
  | .scConstant getValue => .ok (cutConstant w getValue.toInt)
  | .scUDivExpr LHS RHS => do
    match ← getSCEVBoundFromCVDomain CVDom LHS with
    | none => .ok none
    | some Lhsval => do
      match ← getSCEVBoundFromCVDomain CVDom RHS with
      | none => .ok none
      | some Rhsval => divideUnsigned Lhsval Rhsval
  | .integerArgument ArgNo _ =>
    if w > 32 then .ok none else F.getValueByArgument ArgNo CVDom
  | .other _ => .ok none

end FunctionSignature

section CallingConvention

/-- The core registers that the calling convention takes for an argument, and whether they are
aligned to a pair. -/
def coreRegisters (FloatABIType : FloatABI) : ArgType → ℕ × Bool
  | .integer Size => if Size ≤ 32 then (1, false) else ((Size + 31) / 32, true)
  | .float => if FloatABIType = .Hard then (0, false) else (1, false)
  | .double => if FloatABIType = .Hard then (0, false) else (2, true)
  | .otherFloatingPoint => (0, false)
  | .pointer => (1, false)
  | .other => (0, false)

/-- The next core register number; arguments that do not fit go to the stack, and no core
register is used after them. -/
def nextRegister (FloatABIType : FloatABI) (NCRN : ℕ) (type : ArgType) : ℕ :=
  let (words, aligned) := coreRegisters FloatABIType type
  let first := if aligned then NCRN + NCRN % 2 else NCRN
  if words = 0 then NCRN else if first + words ≤ 4 then first + words else 4

/-- The core register of an argument that takes one, unless it is on the stack. -/
def argumentRegister (F : FunctionSignature) (ArgNo : ℕ) : Option ℕ :=
  let NCRN := (F.args.take ArgNo).foldl (nextRegister F.FloatABIType) 0
  if NCRN < 4 then some NCRN else none

/-- The arguments of a call, by their numbers, in the low bits of words. -/
abbrev Arguments := ℕ → (w : ℕ) → BitVec w

/-- The arguments that take one core register are in it. -/
def PassedBy (F : FunctionSignature) (arguments : Arguments) (s : MachineState) : Prop :=
  ∀ ArgNo w r, F.args[ArgNo]? = some (.integer w) → w ≤ 32 → argumentRegister F ArgNo = some r →
    (s.regs r).setWidth w = arguments ArgNo w

/-- The value of an expression. -/
def SCEV.eval {F : FunctionSignature} (arguments : Arguments) (unknown : OtherSCEVType →
    (w : ℕ) → BitVec w) {w : ℕ} : SCEV F w → BitVec w
  | .scConstant getValue => getValue
  | .scUDivExpr LHS RHS => LHS.eval arguments unknown / RHS.eval arguments unknown
  | .integerArgument ArgNo _ => arguments ArgNo w
  | .other type => unknown type w

end CallingConvention

section Registers

variable (F : FunctionSignature) (σ : ConstantValueDomain)

/-- The types that no assertion is about. -/
def FunctionSignature.supports : ArgType → Bool
  | .integer Size => decide (Size ≤ 32) || Size == 64
  | .otherFloatingPoint => F.FloatABIType == .Hard
  | .other => false
  | _ => true

/-- The constant that is known for an argument in its register. -/
def argumentConstant (ArgNo : ℕ) : Option Word :=
  if F.arch = .arm ∧ (F.FloatABIType = .Hard ∨ F.FloatABIType = .Soft) ∧
      (F.args.take ArgNo).all F.supports then
    (argumentRegister F ArgNo).bind fun r => if σ.bot then none else σ.reg2const.find? r
  else none

variable {F σ}

/-- The registers are counted as the calling convention takes them. -/
theorem gprsAfter_cases (Argnum : ℕ) (type : ArgType) :
    (∃ message, F.gprsAfter Argnum type = .error (.assertion message)) ∧
        F.supports type = false ∨
      ∃ Argnum', F.gprsAfter Argnum type = .ok Argnum' ∧ F.supports type = true ∧
        nextRegister F.FloatABIType (min Argnum 4) type = min Argnum' 4 := by
  cases type with
  | other => exact .inl ⟨⟨_, rfl⟩, rfl⟩
  | pointer =>
    refine .inr ⟨Argnum + 1, rfl, rfl, ?_⟩
    simp only [nextRegister, coreRegisters]
    split_ifs <;> simp_all <;> omega
  | float =>
    refine .inr ⟨_, rfl, rfl, ?_⟩
    simp only [nextRegister, coreRegisters]
    split_ifs <;> simp_all <;> omega
  | double =>
    refine .inr ⟨_, rfl, rfl, ?_⟩
    simp only [nextRegister, coreRegisters]
    split_ifs <;> simp_all <;> omega
  | otherFloatingPoint =>
    by_cases hard : F.FloatABIType = .Hard
    · refine .inr ⟨Argnum, by simp [FunctionSignature.gprsAfter, hard],
        by simp [FunctionSignature.supports, hard], ?_⟩
      simp [nextRegister, coreRegisters]
    · exact .inl ⟨⟨_, by rw [FunctionSignature.gprsAfter, if_pos hard]⟩,
        by simp [FunctionSignature.supports, hard]⟩
  | integer Size =>
    by_cases hsize : (decide (Size ≤ 32) || Size == 64) = true
    · refine .inr ⟨if Size ≤ 32 then Argnum + 1 else Argnum + 2 + Argnum % 2, ?_, hsize, ?_⟩
      · rw [FunctionSignature.gprsAfter, assertThat_of hsize]
        rfl
      · by_cases hword : Size ≤ 32
        · simp only [nextRegister, coreRegisters, if_pos hword]
          split_ifs <;> simp_all <;> omega
        · have hdouble : Size = 64 := by simpa [hword] using hsize
          subst hdouble
          simp only [nextRegister, coreRegisters, if_neg hword]
          split_ifs <;> simp_all <;> omega
    · have hfalse := Bool.eq_false_iff.mpr hsize
      refine .inl ⟨⟨"Unexpected integer size", ?_⟩, hfalse⟩
      rw [FunctionSignature.gprsAfter, hfalse]
      rfl

theorem foldlM_gprsAfter (Argnum : ℕ) (types : List ArgType) :
    (∃ message, types.foldlM F.gprsAfter Argnum = .error (.assertion message)) ∧
        types.all F.supports = false ∨
      ∃ Argnum', types.foldlM F.gprsAfter Argnum = .ok Argnum' ∧ types.all F.supports = true ∧
        types.foldl (nextRegister F.FloatABIType) (min Argnum 4) = min Argnum' 4 := by
  induction types generalizing Argnum with
  | nil => exact .inr ⟨Argnum, rfl, rfl, rfl⟩
  | cons type types ih =>
    rw [List.foldlM_cons, List.all_cons, List.foldl_cons]
    rcases gprsAfter_cases (F := F) Argnum type with
      ⟨⟨message, h⟩, hsupports⟩ | ⟨Argnum', h, hsupports, hnext⟩
    · rw [h, hsupports]
      exact .inl ⟨⟨message, rfl⟩, rfl⟩
    · rw [h, hsupports, hnext]
      exact ih Argnum'

/-- An argument is read from the register that the calling convention assigns to it. -/
theorem getValueByArgument_cases (ArgNo : ℕ) :
    (∃ message, F.getValueByArgument ArgNo σ = .error (.assertion message)) ∧
        argumentConstant F σ ArgNo = none ∨
      F.getValueByArgument ArgNo σ = .ok (argumentConstant F σ ArgNo) := by
  unfold FunctionSignature.getValueByArgument argumentConstant
  cases harch : F.arch with
  | riscv32 => exact .inr (by simp)
  | other => exact .inr (by simp)
  | arm =>
    by_cases habi : F.FloatABIType = .Hard ∨ F.FloatABIType = .Soft
    · have hassert : (F.FloatABIType == .Hard || F.FloatABIType == .Soft) = true := by
        simpa using habi
      rcases foldlM_gprsAfter (F := F) 0 (F.args.take ArgNo) with
        ⟨⟨message, h⟩, hsupports⟩ | ⟨Argnum, h, hsupports, hnext⟩
      · refine .inl ⟨⟨message, ?_⟩, ?_⟩
        · simp only [assertThat_of hassert, h]
          rfl
        · rw [if_neg (by simp [hsupports])]
      · refine .inr ?_
        rw [Nat.zero_min] at hnext
        simp only [assertThat_of hassert, h, Checked.ok_bind, true_and, habi, hsupports, if_true,
          argumentRegister, hnext]
        by_cases hlt : Argnum < 4
        · have hmin : min Argnum 4 = Argnum := by omega
          rw [if_pos hlt, hmin, if_pos hlt, Option.bind_some]
          cases hbot : σ.bot with
          | true => rfl
          | false =>
            cases hfind : σ.reg2const.find? Argnum <;> simp [ConstantValueDomain.isTop, hfind]
        · rw [if_neg hlt, if_neg (by omega), Option.bind_none]
    · refine .inl ⟨⟨"FloatAbi == FloatABI::Hard || FloatAbi == FloatABI::Soft", ?_⟩, ?_⟩
      · have hassert : (F.FloatABIType == .Hard || F.FloatABIType == .Soft) = false := by
          simpa using habi
        simp only [hassert]
        rfl
      · rw [if_neg (fun h => habi h.2.1)]

theorem argumentConstant_eq_some {ArgNo : ℕ} {v : Word}
    (h : argumentConstant F σ ArgNo = some v) :
    ∃ r, argumentRegister F ArgNo = some r ∧ σ.reg2const.find? r = some v := by
  unfold argumentConstant at h
  split at h
  · obtain ⟨r, hr, h⟩ := Option.bind_eq_some_iff.mp h
    split at h
    · cases h
    · exact ⟨r, hr, h⟩
  · cases h

end Registers

section Values

variable {F : FunctionSignature} (σ : ConstantValueDomain)

/-- The constant fits into a signed number of 32 bits, without the two outermost ones. -/
def fitsSigned (BitWidth : ℕ) (TmpValue : ℤ) : Prop :=
  BitWidth ≤ 64 ∧ TmpValue < 2 ^ 31 - 1 ∧ -2 ^ 31 < TmpValue

/-- All constants of the expression are in range and all its arguments are known. -/
def SCEV.Known {w : ℕ} : SCEV F w → Prop
  | .scConstant getValue => fitsSigned w getValue.toInt
  | .scUDivExpr LHS RHS => LHS.Known ∧ RHS.Known
  | .integerArgument ArgNo _ => w ≤ 32 ∧ (argumentConstant F σ ArgNo).isSome
  | .other _ => False

/-- The known arguments. -/
def knownArguments (F : FunctionSignature) : Arguments :=
  fun ArgNo w => ((argumentConstant F σ ArgNo).getD 0).setWidth w

/-- The value of the expression for the known arguments. -/
def SCEV.knownValue {w : ℕ} (e : SCEV F w) : BitVec w := e.eval (knownArguments σ F) fun _ _ => 0

/-- Negative constants have 32 bits, known arguments are extended by zeros, and no known divisor
is zero. -/
def SCEV.Exact {w : ℕ} : SCEV F w → Prop
  | .scConstant getValue => fitsSigned w getValue.toInt → 0 ≤ getValue.toInt ∨ w = 32
  | .scUDivExpr LHS RHS => LHS.Exact ∧
      (LHS.Known σ → RHS.Exact ∧ (RHS.Known σ → RHS.knownValue σ ≠ 0))
  | .integerArgument ArgNo _ =>
    w ≤ 32 → ∀ v, argumentConstant F σ ArgNo = some v → v.toNat < 2 ^ w
  | .other _ => True

/-- A value that is returned is that of the expression in all described states, and there is no
division by zero. -/
def SCEV.Sound {w : ℕ} (e : SCEV F w) : Prop :=
  F.getSCEVBoundFromCVDomain σ e ≠ .error .outOfBounds ∧
    ∀ Value, F.getSCEVBoundFromCVDomain σ e = .ok (some Value) → ∀ s arguments unknown,
      σ.Describes s → PassedBy F arguments s → Value.toNat = (e.eval arguments unknown).toNat

/-- The expressions that are evaluated for an expression. -/
inductive SCEV.Evaluates {w : ℕ} : SCEV F w → SCEV F w → Prop
  | self (e : SCEV F w) : Evaluates e e
  | left {LHS RHS e : SCEV F w} (h : Evaluates LHS e) : Evaluates (.scUDivExpr LHS RHS) e
  | right {LHS RHS e : SCEV F w} (known : LHS.Known σ) (h : Evaluates RHS e) :
    Evaluates (.scUDivExpr LHS RHS) e

variable {σ} {w : ℕ} {e : SCEV F w}

theorem cutConstant_of_fitsSigned {BitWidth : ℕ} {TmpValue : ℤ} (h : fitsSigned BitWidth TmpValue) :
    cutConstant BitWidth TmpValue = some (BitVec.ofInt 32 TmpValue) := by
  obtain ⟨hwidth, hlt, hgt⟩ := h
  rw [cutConstant, if_neg (by omega), if_neg (by omega)]

theorem cutConstant_of_not_fitsSigned {BitWidth : ℕ} {TmpValue : ℤ}
    (h : ¬ fitsSigned BitWidth TmpValue) : cutConstant BitWidth TmpValue = none := by
  unfold cutConstant
  split_ifs with hwidth hvalue
  · rfl
  · rfl
  · exact absurd ⟨by omega, by omega, by omega⟩ h

/-- The value of a constant as an unsigned number of 32 bits. -/
theorem toNat_cut {v : BitVec w} (h : fitsSigned w v.toInt) :
    (BitVec.ofInt 32 v.toInt).toNat = v.toNat ↔ 0 ≤ v.toInt ∨ w = 32 := by
  obtain ⟨-, hlt, hgt⟩ := h
  have hcut : (BitVec.ofInt 32 v.toInt).toNat = (v.toInt % 2 ^ 32).toNat := by
    rw [BitVec.toNat_ofInt]
    rfl
  have hint := BitVec.toInt_eq_toNat_cond v
  have hbound := v.isLt
  rw [hcut]
  by_cases hneg : 0 ≤ v.toInt
  · have hmod : v.toInt % 2 ^ 32 = v.toInt := Int.emod_eq_of_lt hneg (by omega)
    rw [hmod]
    split_ifs at hint with hsmall
    · constructor
      · exact fun _ => .inl hneg
      · intro _
        omega
    · have hwrap : (v.toNat : ℤ) < ((2 ^ w : ℕ) : ℤ) := Int.ofNat_lt.mpr hbound
      omega
  · have hmod : v.toInt % 2 ^ 32 = v.toInt + 2 ^ 32 := by
      rw [← Int.add_emod_right]
      exact Int.emod_eq_of_lt (by omega) (by omega)
    rw [hmod]
    split_ifs at hint with hsmall
    · omega
    · have hnat : (v.toNat : ℤ) = v.toInt + ((2 ^ w : ℕ) : ℤ) := by omega
      constructor
      · intro heq
        have hpow : 2 ^ 32 = 2 ^ w := by omega
        exact .inr (Nat.pow_right_injective le_rfl hpow).symm
      · rintro (hpos | rfl)
        · exact absurd hpos hneg
        · omega

/-- The value is that of the expression for the known arguments, if all are known. -/
theorem evaluated (h : e.Exact σ) :
    ¬ e.Known σ ∧ ((∃ message, F.getSCEVBoundFromCVDomain σ e = .error (.assertion message)) ∨
        F.getSCEVBoundFromCVDomain σ e = .ok none) ∨
      e.Known σ ∧ ∃ Value, F.getSCEVBoundFromCVDomain σ e = .ok (some Value) ∧
        Value.toNat = (e.knownValue σ).toNat := by
  induction e with
  | other type => exact .inl ⟨id, .inr rfl⟩
  | scConstant getValue =>
    by_cases hrange : fitsSigned w getValue.toInt
    · refine .inr ⟨hrange, _, congrArg Except.ok (cutConstant_of_fitsSigned hrange), ?_⟩
      exact (toNat_cut hrange).mpr (h hrange)
    · exact .inl ⟨hrange, .inr (congrArg Except.ok (cutConstant_of_not_fitsSigned hrange))⟩
  | integerArgument ArgNo type =>
    by_cases hwide : w > 32
    · exact .inl ⟨fun hknown => by have := hknown.1; omega, .inr (if_pos hwide)⟩
    · have hrun : F.getSCEVBoundFromCVDomain σ (.integerArgument ArgNo type) =
          F.getValueByArgument ArgNo σ := if_neg hwide
      rw [hrun]
      rcases getValueByArgument_cases (F := F) (σ := σ) ArgNo with ⟨hfault, hnone⟩ | hvalue
      · refine .inl ⟨fun hknown => ?_, .inl hfault⟩
        have hsome := hknown.2
        rw [hnone] at hsome
        cases hsome
      · rw [hvalue]
        cases hconstant : argumentConstant F σ ArgNo with
        | none =>
          refine .inl ⟨fun hknown => ?_, .inr rfl⟩
          have hsome := hknown.2
          rw [hconstant] at hsome
          cases hsome
        | some v =>
          refine .inr ⟨⟨by omega, by rw [hconstant]; rfl⟩, v, rfl, ?_⟩
          have hfit := h (by omega) v hconstant
          rw [SCEV.knownValue, SCEV.eval, knownArguments, hconstant, Option.getD_some,
            BitVec.toNat_setWidth, Nat.mod_eq_of_lt hfit]
  | scUDivExpr LHS RHS ihL ihR =>
    rw [FunctionSignature.getSCEVBoundFromCVDomain]
    rcases ihL h.1 with ⟨hnot, ⟨message, hL⟩ | hL⟩ | ⟨hknownL, Lhsval, hL, hvalL⟩
    · rw [hL]
      exact .inl ⟨fun hknown => hnot hknown.1, .inl ⟨message, rfl⟩⟩
    · rw [hL]
      exact .inl ⟨fun hknown => hnot hknown.1, .inr rfl⟩
    · rw [hL]
      obtain ⟨hexact, hzero⟩ := h.2 hknownL
      rcases ihR hexact with ⟨hnot, ⟨message, hR⟩ | hR⟩ | ⟨hknownR, Rhsval, hR, hvalR⟩
      · simp only [Checked.ok_bind, hR]
        exact .inl ⟨fun hknown => hnot hknown.2, .inl ⟨message, rfl⟩⟩
      · simp only [Checked.ok_bind, hR]
        exact .inl ⟨fun hknown => hnot hknown.2, .inr trivial⟩
      · simp only [Checked.ok_bind, hR]
        have hne : Rhsval ≠ 0 := by
          rintro rfl
          exact hzero hknownR (BitVec.eq_of_toNat_eq hvalR.symm)
        refine .inr ⟨⟨hknownL, hknownR⟩, Lhsval / Rhsval, if_neg hne, ?_⟩
        have hdiv : SCEV.knownValue σ (.scUDivExpr LHS RHS) =
            LHS.knownValue σ / RHS.knownValue σ := rfl
        rw [hdiv, BitVec.toNat_udiv, BitVec.toNat_udiv, hvalL, hvalR]

/-- In a described state the arguments have their known values. -/
theorem eval_of_known (hknown : e.Known σ) {s : MachineState} {arguments : Arguments}
    (hs : σ.Describes s) (hpassed : PassedBy F arguments s)
    (unknown : OtherSCEVType → (w : ℕ) → BitVec w) :
    e.knownValue σ = e.eval arguments unknown := by
  induction e with
  | other type => exact absurd hknown id
  | scConstant getValue => rfl
  | scUDivExpr LHS RHS ihL ihR =>
    exact congrArg₂ (· / ·) (ihL hknown.1) (ihR hknown.2)
  | integerArgument ArgNo type =>
    obtain ⟨v, hv⟩ := Option.isSome_iff_exists.mp hknown.2
    obtain ⟨r, hr, hfind⟩ := argumentConstant_eq_some hv
    have hreg : s.regs r = v := hs.regs r v hfind
    rw [SCEV.knownValue, SCEV.eval, SCEV.eval, knownArguments, hv, Option.getD_some, ← hreg]
    exact hpassed ArgNo w r type hknown.1 hr

theorem SCEV.Exact.sound (h : e.Exact σ) : e.Sound σ := by
  rcases evaluated h with ⟨-, ⟨message, hrun⟩ | hrun⟩ | ⟨hknown, Value, hrun, hvalue⟩
  · exact ⟨by rw [hrun]; nofun, fun Value' h' => by rw [hrun] at h'; cases h'⟩
  · exact ⟨by rw [hrun]; nofun, fun Value' h' => by rw [hrun] at h'; cases h'⟩
  · refine ⟨by rw [hrun]; nofun, ?_⟩
    intro Value' h' s arguments unknown hs hpassed
    rw [hrun] at h'
    cases h'
    rw [hvalue, eval_of_known hknown hs hpassed unknown]

theorem SCEV.Exact.evaluates {e' : SCEV F w} (h : e.Exact σ) (heval : e.Evaluates σ e') :
    e'.Exact σ := by
  induction heval with
  | self e => exact h
  | left _ ih => exact ih h.1
  | right known _ ih => exact ih (h.2 known).1

/-- If all expressions that are evaluated are right, the condition holds. -/
theorem SCEV.exact_of_sound {s : MachineState} (hs : σ.Describes s)
    (h : ∀ e', e.Evaluates σ e' → e'.Sound σ) : e.Exact σ := by
  -- arguments that are what the registers hold
  have hpassed : PassedBy F
      (fun ArgNo w => (s.regs ((argumentRegister F ArgNo).getD 0)).setWidth w) s := by
    intro ArgNo w r _ _ hr
    dsimp only
    rw [hr, Option.getD_some]
  induction e with
  | other type => trivial
  | scConstant getValue =>
    intro hrange
    apply (toNat_cut hrange).mp
    exact (h _ (.self _)).2 _ (congrArg Except.ok (cutConstant_of_fitsSigned hrange)) s _
      (fun _ _ => 0) hs hpassed
  | integerArgument ArgNo type =>
    intro hwide v hv
    have hrun : F.getSCEVBoundFromCVDomain σ (.integerArgument ArgNo type) = .ok (some v) := by
      rw [FunctionSignature.getSCEVBoundFromCVDomain, if_neg (by omega)]
      rcases getValueByArgument_cases (F := F) (σ := σ) ArgNo with ⟨-, hnone⟩ | hvalue
      · rw [hnone] at hv
        cases hv
      · rw [hvalue, hv]
    rw [(h _ (.self _)).2 v hrun s _ (fun _ _ => 0) hs hpassed]
    exact BitVec.isLt _
  | scUDivExpr LHS RHS ihL ihR =>
    have hL := ihL fun e' he' => h e' (.left he')
    refine ⟨hL, fun hknownL => ?_⟩
    have hR := ihR fun e' he' => h e' (.right hknownL he')
    refine ⟨hR, fun hknownR hzero => ?_⟩
    have hdivides := (h _ (.self _)).1
    rcases evaluated hL with ⟨hnot, -⟩ | ⟨-, Lhsval, hrunL, -⟩
    · exact hnot hknownL
    · rcases evaluated hR with ⟨hnot, -⟩ | ⟨-, Rhsval, hrunR, hvalR⟩
      · exact hnot hknownR
      · have hRhs : Rhsval = 0 := by
          apply BitVec.eq_of_toNat_eq
          rw [hvalR, hzero]
          rfl
        apply hdivides
        rw [FunctionSignature.getSCEVBoundFromCVDomain]
        simp only [hrunL, hrunR, Checked.ok_bind, hRhs]
        rfl

/-- All values that are computed for an expression are right, and no division is by zero, if and
only if negative constants have 32 bits, arguments are extended by zeros and no divisor is zero. -/
theorem getSCEVBoundFromCVDomain_exact (F : FunctionSignature) (σ : ConstantValueDomain) {w : ℕ}
    (e : SCEV F w) :
    (e.Exact σ → ∀ e', e.Evaluates σ e' → e'.Sound σ) ∧
      ((∃ s, σ.Describes s) → (∀ e', e.Evaluates σ e' → e'.Sound σ) → e.Exact σ) := by
  constructor
  · exact fun h e' he' => (h.evaluates he').sound
  · rintro ⟨s, hs⟩ h
    exact SCEV.exact_of_sound hs h

/-- A function with one argument of 32 bits. -/
def oneArgument : FunctionSignature := ⟨.arm, .Soft, [.integer 32]⟩

/-- Zero is known for the first register. -/
def zeroArgument : ConstantValueDomain where
  bot := false
  reg2const := OrderedMap.empty.insert 0 0
  addr2const := .empty
  reg2symbol := .empty
  addr2symbol := .empty
  fnparam2symbol := .empty
  aliasfreeSlots := ∅

theorem describes_zeroArgument : zeroArgument.Describes ⟨fun _ => 0, fun _ => 0, fun _ => 0⟩ where
  reachable := rfl
  regs := OrderedMap.forall_empty.insert rfl
  mem := OrderedMap.forall_empty

/-- The constant -1 of 8 bits is taken for 4294967295, and 100 is divided by an argument that
is 0. -/
theorem getSCEVBoundFromCVDomain_wrong :
    ¬ (SCEV.scConstant (-1) : SCEV oneArgument 8).Sound zeroArgument ∧
      ¬ (SCEV.scUDivExpr (.scConstant 100) (.integerArgument 0 rfl) :
        SCEV oneArgument 32).Sound zeroArgument := by
  constructor
  · intro h
    have hpassed : PassedBy oneArgument (fun _ _ => 0) ⟨fun _ => 0, fun _ => 0, fun _ => 0⟩ := by
      intro ArgNo w r _ _ _
      exact BitVec.setWidth_zero w 32
    have heq := h.2 0xffffffff (by decide) _ _ (fun _ _ => 0) describes_zeroArgument hpassed
    revert heq
    decide
  · intro h
    exact h.1 (by decide)

end Values

end Llvmta
