import Llvmta.Library.ByteMemory
import Llvmta.Library.CheckedVector
import Llvmta.Library.MapEntries
import Llvmta.Memory.CacheTraits
import Mathlib.Data.String.Basic

/-!
# The constant-value domain

For registers and for words of the memory the domain holds the constants that
they are known to contain, and the global variables ("symbols") that they point
into. What is not in a map is unknown. This module has what both instruction
sets share: operands, the addresses of data accesses and the effect of stores on
the maps of the memory.
-/

namespace Llvmta

open Checked

/-- A general-purpose register, by its encoding, or a register of another class. -/
inductive Register where
  | gpr (encoding : ℕ)
  | other (encoding : ℕ)
  deriving DecidableEq, Repr

def Register.getEncodingValue : Register → ℕ
  | gpr encoding => encoding
  | other encoding => encoding

inductive GlobalValue where
  | globalVariable (glvar : GlobalVariable)
  | function (index : ℕ)
  deriving DecidableEq, Repr

/-- Immediates, constant pool entries and globals; the latter two with an offset.
An operand of another kind has the value it is resolved to. -/
inductive MachineOperand where
  | imm (value : ℤ)
  | cpi (index : ℕ) (offset : ℤ)
  | global (value : GlobalValue) (offset : ℤ)
  | other (value : Word)
  deriving DecidableEq, Repr

inductive PointerOperand where
  | globalVariable (glvar : GlobalVariable)
  | argument (name : String)
  | other
  deriving DecidableEq, Repr

/-- What a memory operand says about the accessed location. -/
inductive MachineMemOperand where
  | getElementPtr (pointer : PointerOperand)
  | globalVariable (glvar : GlobalVariable)
  | fixedStack (isSpillSlot mayAlias isAliased : Bool)
  | other
  deriving DecidableEq, Repr

structure MachineInstr (Opcode : Type) where
  opcode : Opcode
  /-- the registers among all operands that are defined -/
  defs : List Register
  memoperands : List MachineMemOperand
  /-- the function the instruction belongs to -/
  function : ℕ
  deriving DecidableEq, Repr

/-- What the static address provider knows about the program. -/
structure StaticAddresses where
  /-- the option `ArrayAnalysis` -/
  arrayAnalysis : Bool
  glvar2addr : GlobalVariable → Option Word
  getArraySize : GlobalVariable → Word
  cpe2addr : ℕ → ℕ → Option Word
  addr2values : Word → Option Word
  addr2symbol : Word → Option GlobalVariable

/-- A value that is asserted to be there. -/
def expect {α : Type*} (value : Option α) (message : String) : Except Fault α :=
  match value with
  | some a => .ok a
  | none => .error (.assertion message)

@[simp] theorem expect_some {α : Type*} (a : α) (message : String) :
    expect (some a) message = .ok a := rfl

theorem expect_eq_ok {α : Type*} {value : Option α} {message : String} {a : α} :
    expect value message = .ok a ↔ value = some a := by
  cases value <;> simp [expect]

namespace StaticAddresses

variable (P : StaticAddresses)

def getGlobalVarAddress (glvar : GlobalVariable) : Except Fault Word :=
  expect (P.glvar2addr glvar) "Cannot get address for given global variable"

def getConstPoolEntryAddr (function index : ℕ) : Except Fault Word :=
  expect (P.cpe2addr function index) "Cannot find address for CP entry"

end StaticAddresses

/-- An abstract address whose array is not resolved to an interval yet. -/
inductive DataAddress where
  | interval (lower upper : Word)
  | array (glvar : GlobalVariable)
  deriving DecidableEq, Repr

namespace DataAddress

def ofAddress (address : Word) : DataAddress := interval address address

def getUnknownAddress : DataAddress := interval 0 0xffffffff

/-- The address of an access to a global variable. -/
def ofGlobalVariable (P : StaticAddresses) (glvar : GlobalVariable) : DataAddress :=
  if P.arrayAnalysis then array glvar else getUnknownAddress

/-- The address, if it is a single one: `isPrecise` and `getAsInterval().lower()`. -/
def precise? : DataAddress → Option Word
  | interval lower upper => if lower = upper then some lower else none
  | array _ => none

/-- The bounds of the addresses; inverted bounds become those of the empty interval. -/
def getAsInterval (P : StaticAddresses) : DataAddress → Except Fault (Word × Word)
  | interval lower upper => .ok (lower, upper)
  | array glvar => do
    let base ← P.getGlobalVarAddress glvar
    let upper := base + P.getArraySize glvar - 4
    .ok (if base ≤ upper then (base, upper) else (1, 0))

@[simp] theorem precise?_ofAddress (address : Word) :
    (ofAddress address).precise? = some address := if_pos rfl

@[simp] theorem precise?_getUnknownAddress : getUnknownAddress.precise? = none := rfl

@[simp] theorem precise?_ofGlobalVariable (P : StaticAddresses) (glvar : GlobalVariable) :
    (ofGlobalVariable P glvar).precise? = none := by
  unfold ofGlobalVariable
  split <;> rfl

end DataAddress

/-- Known constants and symbols of registers and of words of the memory. -/
@[ext] structure ConstantValueDomain where
  /-- the program point is unreachable -/
  bot : Bool
  reg2const : OrderedMap ℕ Word
  addr2const : OrderedMap Word Word
  reg2symbol : OrderedMap ℕ GlobalVariable
  addr2symbol : OrderedMap Word GlobalVariable
  fnparam2symbol : OrderedMap String GlobalVariable
  /-- tracked spill slots that nothing but spills accesses -/
  aliasfreeSlots : Finset Word

namespace ConstantValueDomain

/-- The values and symbols that both domain elements agree on. -/
def join (σ element : ConstantValueDomain) : ConstantValueDomain :=
  if element.bot then σ
  else if σ.bot then element
  else
    { bot := false
      reg2const := σ.reg2const.agree element.reg2const
      reg2symbol := σ.reg2symbol.agree element.reg2symbol
      addr2const := σ.addr2const.agree element.addr2const
      addr2symbol := σ.addr2symbol.agree element.addr2symbol
      fnparam2symbol := σ.fnparam2symbol.agree element.fnparam2symbol
      aliasfreeSlots := σ.aliasfreeSlots ∩ element.aliasfreeSlots }

def isTop (σ : ConstantValueDomain) : Register → Bool
  | .gpr encoding => (σ.reg2const.find? encoding).isNone
  | .other _ => true

def getSymbolFor (σ : ConstantValueDomain) : Register → Option GlobalVariable
  | .gpr encoding => σ.reg2symbol.find? encoding
  | .other _ => none

/-- The memory operand describes an alias-free spill slot. -/
def isAliasfreeSpill : List MachineMemOperand → Bool
  | .fixedStack isSpillSlot mayAlias isAliased :: _ => isSpillSlot && !mayAlias && !isAliased
  | _ => false

/-- A store of a known value or symbol to a known address. -/
def performStoreValue (memoperands : List MachineMemOperand) (addr : Word) (valptr : Option Word)
    (sym : Option GlobalVariable) (σ : ConstantValueDomain) : ConstantValueDomain :=
  { σ with
    addr2const := σ.addr2const.assign addr valptr
    addr2symbol := σ.addr2symbol.assign addr sym
    aliasfreeSlots :=
      if valptr.isSome || sym.isSome then
        if isAliasfreeSpill memoperands then insert addr σ.aliasfreeSlots else σ.aliasfreeSlots
      else σ.aliasfreeSlots.erase addr }

def performStoreUnknownValue (addr : Word) (σ : ConstantValueDomain) : ConstantValueDomain :=
  { σ with
    addr2const := σ.addr2const.erase addr
    addr2symbol := σ.addr2symbol.erase addr
    aliasfreeSlots := σ.aliasfreeSlots.erase addr }

/-- A store somewhere into an interval: alias-free slots are not affected. -/
def performStoreUnknownAddress (P : StaticAddresses) (addr : DataAddress)
    (σ : ConstantValueDomain) : Except Fault ConstantValueDomain := do
  assertThat addr.precise?.isNone "This address isn't unknown!"
  let itv ← addr.getAsInterval P
  let keep (a : Word) : Bool := a < itv.1 || itv.2 < a || a ∈ σ.aliasfreeSlots
  .ok { σ with
    addr2const := σ.addr2const.filter fun a _ => keep a
    addr2symbol := σ.addr2symbol.filter fun a _ => keep a }

/-- The global variable that the memory operands agree on. -/
def describedTarget (params : OrderedMap String GlobalVariable) :
    Option GlobalVariable → List MachineMemOperand → Option GlobalVariable
  | resglvar, [] => resglvar
  | resglvar, .getElementPtr (.globalVariable glvar) :: rest =>
    if resglvar.getD glvar = glvar then describedTarget params (some glvar) rest else none
  | resglvar, .getElementPtr (.argument name) :: rest =>
    match params.find? name with
    | some glvar =>
      if resglvar.getD glvar = glvar then describedTarget params (some glvar) rest else none
    | none => describedTarget params resglvar rest
  | _, .globalVariable glvar :: rest => describedTarget params (some glvar) rest
  | _, _ => none

def extractGlobalDatastructure (P : StaticAddresses) (memoperands : List MachineMemOperand)
    (σ : ConstantValueDomain) : DataAddress :=
  match describedTarget σ.fnparam2symbol none memoperands with
  | some resglvar => .ofGlobalVariable P resglvar
  | none => .getUnknownAddress

/-- An access through a register of unknown value. -/
def addressOfUnknownBase (P : StaticAddresses) (memoperands : List MachineMemOperand)
    (basereg : ℕ) (σ : ConstantValueDomain) : DataAddress :=
  match σ.getSymbolFor (.gpr basereg) with
  | some glvar => .ofGlobalVariable P glvar
  | none => σ.extractGlobalDatastructure P memoperands

/-- Forgets what the accesses from `pos` on may overwrite. -/
def forgetAccesses (P : StaticAddresses)
    (getDataAccessAddress : ConstantValueDomain → ℕ → Except Fault DataAddress) :
    ℕ → ℕ → ConstantValueDomain → Except Fault ConstantValueDomain
  | 0, _, σ => .ok σ
  | numAcc + 1, pos, σ => do
    let addr ← getDataAccessAddress σ pos
    match addr.precise? with
    | some concreteAddr =>
      forgetAccesses P getDataAccessAddress numAcc (pos + 1)
        (σ.performStoreUnknownValue concreteAddr)
    | none => σ.performStoreUnknownAddress P addr

/-- Forgets the general-purpose registers among the defined ones. -/
def forgetDefs : List Register → ConstantValueDomain → ConstantValueDomain
  | [], σ => σ
  | .gpr destnr :: defs, σ =>
    forgetDefs defs
      { σ with reg2const := σ.reg2const.erase destnr, reg2symbol := σ.reg2symbol.erase destnr }
  | .other _ :: defs, σ => forgetDefs defs σ

section Stores

variable {P : StaticAddresses} {σ σ' : ConstantValueDomain} {addr : DataAddress}
  {R : Word → Word → Prop}

/-- The entry of `a` outlives a store to `addr`. -/
def Survives (P : StaticAddresses) (isSlot : Prop) (addr : DataAddress) (a : Word) : Prop :=
  match addr.precise? with
  | some concreteAddr => a ≠ concreteAddr
  | none => ∀ itv, addr.getAsInterval P = .ok itv → a < itv.1 ∨ itv.2 < a ∨ isSlot

/-- The entry of `a` outlives the accesses from `pos` on. -/
def SurvivesAccesses (P : StaticAddresses) (isSlot : Prop)
    (getDataAccessAddress : ℕ → Except Fault DataAddress) (a : Word) : ℕ → ℕ → Prop
  | 0, _ => True
  | numAcc + 1, pos => ∀ addr, getDataAccessAddress pos = .ok addr →
    Survives P isSlot addr a ∧
      (addr.precise?.isSome → SurvivesAccesses P isSlot getDataAccessAddress a numAcc (pos + 1))

/-- What the operations on stores leave alone. -/
def SameRegisters (σ σ' : ConstantValueDomain) : Prop :=
  σ'.bot = σ.bot ∧ σ'.reg2const = σ.reg2const ∧ σ'.reg2symbol = σ.reg2symbol

theorem SameRegisters.trans {σ'' : ConstantValueDomain} (h : SameRegisters σ σ')
    (h' : SameRegisters σ' σ'') : SameRegisters σ σ'' :=
  ⟨h'.1.trans h.1, h'.2.1.trans h.2.1, h'.2.2.trans h.2.2⟩

theorem performStoreValue_sameRegisters (memoperands : List MachineMemOperand) (a : Word)
    (valptr : Option Word) (sym : Option GlobalVariable) (σ : ConstantValueDomain) :
    SameRegisters σ (σ.performStoreValue memoperands a valptr sym) := ⟨rfl, rfl, rfl⟩

theorem performStoreUnknownAddress_sameRegisters
    (h : σ.performStoreUnknownAddress P addr = .ok σ') : SameRegisters σ σ' := by
  obtain ⟨_, _, h⟩ := bind_eq_ok.mp h
  obtain ⟨itv, _, h⟩ := bind_eq_ok.mp h
  cases h
  exact ⟨rfl, rfl, rfl⟩

theorem find?_performStoreUnknownAddress {a v : Word}
    (h : σ.performStoreUnknownAddress P addr = .ok σ') : σ'.addr2const.find? a = some v ↔
      σ.addr2const.find? a = some v ∧ Survives P (a ∈ σ.aliasfreeSlots) addr a := by
  obtain ⟨_, hassert, h⟩ := bind_eq_ok.mp h
  obtain ⟨itv, hitv, h⟩ := bind_eq_ok.mp h
  have hnone : addr.precise? = none := by simpa using of_assertThat hassert
  cases h
  rw [OrderedMap.find?_filter, Option.filter_eq_some_iff]
  simp only [Survives, hnone, hitv, Except.ok.injEq, forall_eq', Bool.or_eq_true,
    decide_eq_true_eq, or_assoc]

theorem find?_performStoreUnknownValue {a c v : Word} :
    (σ.performStoreUnknownValue c).addr2const.find? a = some v ↔
      σ.addr2const.find? a = some v ∧ a ≠ c := by
  rw [performStoreUnknownValue, OrderedMap.find?_erase]
  split_ifs with hac <;> simp [hac]

variable {address : ConstantValueDomain → ℕ → Except Fault DataAddress} {numAcc pos : ℕ}

theorem forgetAccesses_sameRegisters (h : forgetAccesses P address numAcc pos σ = .ok σ') :
    SameRegisters σ σ' := by
  induction numAcc generalizing pos σ with
  | zero =>
    cases h
    exact ⟨rfl, rfl, rfl⟩
  | succ numAcc ih =>
    obtain ⟨addr, _, h⟩ := bind_eq_ok.mp h
    cases hprecise : addr.precise? with
    | none =>
      rw [hprecise] at h
      exact performStoreUnknownAddress_sameRegisters h
    | some c =>
      rw [hprecise] at h
      have hrest : SameRegisters (σ.performStoreUnknownValue c) σ' := ih h
      exact SameRegisters.trans ⟨rfl, rfl, rfl⟩ hrest

/-- The addresses of the accesses do not depend on what is forgotten meanwhile. -/
theorem find?_forgetAccesses {a v : Word}
    (haddress : ∀ σ c, address (performStoreUnknownValue c σ) = address σ)
    (h : forgetAccesses P address numAcc pos σ = .ok σ') : σ'.addr2const.find? a = some v ↔
      σ.addr2const.find? a = some v ∧
        SurvivesAccesses P (a ∈ σ.aliasfreeSlots) (address σ) a numAcc pos := by
  induction numAcc generalizing pos σ with
  | zero =>
    cases h
    simp [SurvivesAccesses]
  | succ numAcc ih =>
    obtain ⟨addr, haddr, h⟩ := bind_eq_ok.mp h
    simp only [SurvivesAccesses, haddr, Except.ok.injEq, forall_eq']
    cases hprecise : addr.precise? with
    | none =>
      rw [hprecise] at h
      simpa using find?_performStoreUnknownAddress h
    | some c =>
      rw [hprecise] at h
      simp only [ih h, haddress, find?_performStoreUnknownValue, Survives, hprecise,
        Option.isSome_some, forall_const, and_assoc]
      refine and_congr_right fun _ => and_congr_right fun hac => ?_
      have hslot : (a ∈ (σ.performStoreUnknownValue c).aliasfreeSlots) = (a ∈ σ.aliasfreeSlots) :=
        propext (Finset.mem_erase.trans (and_iff_right hac))
      rw [hslot]

end Stores

section Definitions

variable {defs : List Register} {σ : ConstantValueDomain} {r : ℕ}

@[simp] theorem forgetDefs_addr2const : (forgetDefs defs σ).addr2const = σ.addr2const := by
  induction defs generalizing σ with
  | nil => rfl
  | cons d defs ih =>
    cases d with
    | gpr destnr => exact ih
    | other destnr => exact ih

@[simp] theorem forgetDefs_bot : (forgetDefs defs σ).bot = σ.bot := by
  induction defs generalizing σ with
  | nil => rfl
  | cons d defs ih =>
    cases d with
    | gpr destnr => exact ih
    | other destnr => exact ih

/-- What is known of a register that is not defined stays known, and nothing else. -/
theorem find?_forgetDefs {v : Word} : (forgetDefs defs σ).reg2const.find? r = some v ↔
    .gpr r ∉ defs ∧ σ.reg2const.find? r = some v := by
  induction defs generalizing σ with
  | nil => simp [forgetDefs]
  | cons d defs ih =>
    cases d with
    | gpr destnr =>
      rw [forgetDefs, ih, OrderedMap.find?_erase]
      split_ifs with hr <;> simp [hr]
    | other destnr =>
      rw [forgetDefs, ih]
      simp

theorem findSymbol_forgetDefs {glvar : GlobalVariable} :
    (forgetDefs defs σ).reg2symbol.find? r = some glvar ↔
      .gpr r ∉ defs ∧ σ.reg2symbol.find? r = some glvar := by
  induction defs generalizing σ with
  | nil => simp [forgetDefs]
  | cons d defs ih =>
    cases d with
    | gpr destnr =>
      rw [forgetDefs, ih, OrderedMap.find?_erase]
      split_ifs with hr <;> simp [hr]
    | other destnr =>
      rw [forgetDefs, ih]
      simp

end Definitions

end ConstantValueDomain

end Llvmta
