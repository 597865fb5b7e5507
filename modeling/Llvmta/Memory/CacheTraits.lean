import Mathlib.Data.Nat.Bitwise
import Mathlib.Tactic

/-!
# Cache geometry, addresses and classifications

Addresses are 32-bit numbers. A cache is described by its traits; ways and
positions are stored in eight bits, so that every store into such a field goes
through `toWay`. A classification is a bit set whose join is the bitwise
disjunction.
-/

namespace Llvmta

/-- Conversion to `unsigned`. -/
def toUnsigned (n : ℕ) : ℕ := n % 2 ^ 32

/-- `INT_MAX`. -/
def intMax : ℤ := 2 ^ 31 - 1

/-- Conversion to `WayType` and `PosType`, both eight bits wide. -/
def toWay (n : ℕ) : ℕ := n % 2 ^ 8

@[simp] theorem toWay_of_lt {n : ℕ} (h : n < 256) : toWay n = n := Nat.mod_eq_of_lt h

theorem toWay_lt (n : ℕ) : toWay n < 256 := Nat.mod_lt _ (by decide)

@[simp] theorem toUnsigned_of_lt {n : ℕ} (h : n < 4294967296) : toUnsigned n = n :=
  Nat.mod_eq_of_lt h

/-- The dimensions and policies of a cache. -/
structure CacheTraits where
  lineSize : ℕ
  associativity : ℕ
  nSets : ℕ
  writeback : Bool
  writeAllocate : Bool
  level : ℤ
  latency : ℕ
  deriving DecidableEq, Repr

/-- A closed interval of 32-bit addresses. -/
structure AddressInterval where
  lower : ℕ
  upper : ℕ
  lower_le : lower ≤ upper
  upper_lt : upper < 2 ^ 32
  deriving DecidableEq, Repr

namespace AddressInterval

def point (addr : ℕ) (h : addr < 2 ^ 32) : AddressInterval := ⟨addr, addr, le_rfl, h⟩

/-- The interval of an access about which nothing is known. -/
def unknown : AddressInterval := ⟨0, 2 ^ 32 - 1, by decide, by decide⟩

instance : Membership ℕ AddressInterval :=
  ⟨fun itv addr => itv.lower ≤ addr ∧ addr ≤ itv.upper⟩

theorem mem_iff {itv : AddressInterval} {addr : ℕ} :
    addr ∈ itv ↔ itv.lower ≤ addr ∧ addr ≤ itv.upper := Iff.rfl

theorem lower_mem (itv : AddressInterval) : itv.lower ∈ itv := ⟨le_rfl, itv.lower_le⟩

theorem upper_mem (itv : AddressInterval) : itv.upper ∈ itv := ⟨itv.lower_le, le_rfl⟩

end AddressInterval

/-- Global variables are told apart, and ordered, by their identity. -/
abbrev GlobalVariable := ℕ

/-- An interval of addresses, together with the array it covers if it is the
address of an access to an array. -/
structure AbstractAddress where
  interval : AddressInterval
  array : Option GlobalVariable
  deriving DecidableEq, Repr

namespace AbstractAddress

def ofAddress (addr : ℕ) (h : addr < 2 ^ 32) : AbstractAddress :=
  ⟨.point addr h, none⟩

def getUnknownAddress : AbstractAddress := ⟨.unknown, none⟩

def getAsInterval (addr : AbstractAddress) : AddressInterval := addr.interval

def getArray (addr : AbstractAddress) : Option GlobalVariable := addr.array

def isArray (addr : AbstractAddress) : Bool := addr.array.isSome

def isPrecise (addr : AbstractAddress) : Bool :=
  !addr.isArray && addr.interval.lower == addr.interval.upper

def isSameInterval (addr other : AbstractAddress) : Bool :=
  addr.interval.lower == other.interval.lower && addr.interval.upper == other.interval.upper

/-- The address given by a 32-bit number. -/
def ofUnsigned (addr : ℕ) : AbstractAddress :=
  .ofAddress (toUnsigned addr) (Nat.mod_lt _ (by decide))

@[simp] theorem isPrecise_ofUnsigned (addr : ℕ) : (ofUnsigned addr).isPrecise = true := by
  simp [ofUnsigned, ofAddress, isPrecise, isArray, AddressInterval.point]

end AbstractAddress

inductive AccessType where
  | load
  | store
  deriving DecidableEq, Repr

section Geometry

variable (T : CacheTraits)

/-- `addr & ~(LINE_SIZE - 1)` in 32 bits. -/
def getCachelineAddress (addr : ℕ) : ℕ :=
  (BitVec.ofNat 32 addr &&& ~~~(BitVec.ofNat 32 T.lineSize - 1#32)).toNat

def getTag (addr : ℕ) : ℕ := addr / T.lineSize / T.nSets

def getindex (addr : ℕ) : ℕ := addr / T.lineSize % T.nSets

/-- Masking off the offset of a power-of-two line rounds down to its start. -/
theorem getCachelineAddress_eq {k : ℕ} (hk : k < 32) (hL : T.lineSize = 2 ^ k) {addr : ℕ}
    (h : addr < 2 ^ 32) : getCachelineAddress T addr = addr / T.lineSize * T.lineSize := by
  have hpow : 2 ^ k < 2 ^ 32 := Nat.pow_lt_pow_right (by decide) hk
  have hpos : 1 ≤ 2 ^ k := Nat.one_le_two_pow
  have hmask : (BitVec.ofNat 32 (2 ^ k) - 1#32).toNat = 2 ^ k - 1 := by
    rw [BitVec.toNat_sub, BitVec.toNat_ofNat, BitVec.toNat_ofNat,
      Nat.mod_eq_of_lt hpow, Nat.mod_eq_of_lt (by decide : 1 < 2 ^ 32)]
    omega
  unfold getCachelineAddress
  rw [hL]
  apply Nat.eq_of_testBit_eq
  intro i
  rw [BitVec.testBit_toNat, BitVec.getLsbD_and, BitVec.getLsbD_not, ← BitVec.testBit_toNat,
    ← BitVec.testBit_toNat, hmask, BitVec.toNat_ofNat, Nat.mod_eq_of_lt h,
    Nat.testBit_two_pow_sub_one, Nat.testBit_mul_two_pow, Nat.testBit_div_two_pow]
  by_cases hi : i < k
  · simp [hi, Nat.not_le.mpr hi]
  · have hki : k ≤ i := Nat.le_of_not_lt hi
    by_cases hi32 : i < 32
    · simp [hi, hki, hi32]
    · have hz : addr.testBit i = false :=
        Nat.testBit_lt_two_pow (h.trans_le (Nat.pow_le_pow_right (by decide) (by omega)))
      simp [hi, hki, hi32, hz]

/-- Two addresses are in one line exactly when they are aligned to the same address. -/
theorem getCachelineAddress_inj {k : ℕ} (hk : k < 32) (hL : T.lineSize = 2 ^ k)
    {a b : ℕ} (ha : a < 2 ^ 32) (hb : b < 2 ^ 32) :
    getCachelineAddress T a = getCachelineAddress T b ↔ a / T.lineSize = b / T.lineSize := by
  have hpos : 0 < T.lineSize := hL ▸ Nat.two_pow_pos k
  rw [getCachelineAddress_eq T hk hL ha, getCachelineAddress_eq T hk hL hb]
  exact Nat.mul_left_inj hpos.ne'

end Geometry

/-- The lattice of access classifications, as a set of bits. -/
structure Classification where
  value : BitVec 8
  deriving DecidableEq, Repr

namespace Classification

def clBot : Classification := ⟨0⟩
def clHit : Classification := ⟨1⟩
def clMiss : Classification := ⟨2⟩
def clUnknown : Classification := ⟨3⟩
def cl2Hit : Classification := ⟨4⟩
def cl2Miss : Classification := ⟨8⟩
def cl2Unknown : Classification := ⟨12⟩

def join (x y : Classification) : Classification := ⟨x.value ||| y.value⟩

end Classification

/-- What an analysis reports about an update. Only write-back reports can be
joined with reports of other cache sets. -/
inductive UpdateReport where
  | generic
  | lruMaxAge (evictedElements : List ℕ)
  | lruMinAge (evictedElements : List ℕ) (justEvictedUnknowns justIntroducedUnknowns : Bool)
  | writeback (wbPossible dirtifyingStore : Bool)
  deriving DecidableEq, Repr

/-- The task addresses of the other cores, as far as a shared cache needs them. -/
structure Multicore where
  /-- `MulCType == MultiCoreType::LiangY` -/
  liangY : Bool
  currentCore : ℕ
  /-- the entry functions of each core -/
  coreinfo : List (List String)
  /-- the address lists of the functions of a task -/
  functiontofs : String → List (List ℕ)

/-- `CNN`: recorded addresses of other cores in the set of `index` with another tag. -/
def Multicore.conflicts (M : Multicore) (T : CacheTraits) (tag : ℕ) (index : ℕ) : ℕ :=
  if M.liangY && decide (1 < T.level) then
    toUnsigned (M.coreinfo.zipIdx.map fun (core, i) =>
      if i = M.currentCore then 0 else
        (core.map fun entry =>
          ((M.functiontofs entry).map fun addrlist =>
            addrlist.countP fun address =>
              getindex T address == index && getTag T address != tag).sum).sum).sum
  else 0

end Llvmta
