import Llvmta.LLVMPasses.StaticAddressProvider

/-!
# The layout of the address space

The ranges that the pass assigns are disjoint as long as no address is reached a second time.
Three steps of the pass go back: a variable without an alignment is placed at address 0 because
its mask is empty, an entry of a constant pool on RISC-V advances the address by an eighth of
its size, and two variables with one name share the entry of the map.
-/

namespace Llvmta

namespace StaticAddressProvider

open ByteRange KeyedPlacement

section Ranges

variable (M : Module) (s : Maps)

def rangeOf (addresses : OrderedMap String Word) (Gv : Variable) : Option ByteRange :=
  (addresses.find? Gv.getName).map fun address => ⟨address, Gv.typeAllocSize⟩

def constantRange (key : ℕ ×ₗ ℕ) (entry : PoolConstant) : Option ByteRange :=
  (s.Cpe2addr.find? key).map fun address => ⟨address, entry.sizeInBytes.toNat⟩

/-- The entries of the constant pool of a function on RISC-V. -/
def constantRanges (F : Function) : List ByteRange :=
  F.getConstants.zipIdx.filterMap fun entry =>
    constantRange s (toLex (F.getFunctionNumber, entry.2)) entry.1

def poolRanges : List ByteRange :=
  match M.arch with
  | .riscv32 => M.functions.flatMap (constantRanges s)
  | _ => []

/-- The size of what an instruction stands for. -/
def allocSize (I : Instr) : ℕ :=
  match I.pseudo with
  | some (.constpoolEntry _ _ size) => (BitVec.ofInt 32 size).toNat
  | _ => 4

def instrRange (I : Instr) : Option ByteRange :=
  (s.Ins2addr.find? I.pointer).map fun address => ⟨address, allocSize I⟩

/-- The variables, instructions, constants and jump tables of a module are apart from each other
in their sections, and variables are aligned. -/
structure DisjointAndAligned : Prop where
  data : (M.globals.filterMap (rangeOf s.Glvar2addr) ++ poolRanges M s).Pairwise Disjoint
  aligned : ∀ Gv ∈ M.globals, ∃ address, s.Glvar2addr.find? Gv.getName = some address ∧
    (Gv.getAlignment ≠ 0 → Gv.getAlignment.toNat ∣ address.toNat)
  code : ((M.functions.flatMap Function.instructions).filterMap (instrRange s) ++
    s.jumpTables).Pairwise Disjoint

end Ranges

section Alignment

variable {start Alignment : Word}

theorem alignStart_zero (start : Word) : alignStart start 0 = 0 := by
  have hmask : (0 - 1 : Word) = BitVec.allOnes 32 := by decide
  unfold alignStart
  rw [hmask, BitVec.and_allOnes]
  split_ifs with h
  · simp
  · exact not_not.mp h

/-- A number without a bit in common with its predecessor is a power of two. -/
theorem eq_two_pow_of_and {n : ℕ} (hpos : n ≠ 0) (h : n &&& (n - 1) = 0) :
    n = 2 ^ Nat.log2 n := by
  have hbit : n.testBit (Nat.log2 n) = true := Nat.testBit_log2 hpos
  have hclear : (n - 1).testBit (Nat.log2 n) = false := by
    have hand := congrArg (fun m => m.testBit (Nat.log2 n)) h
    simpa only [Nat.testBit_and, hbit, Bool.true_and, Nat.zero_testBit] using hand
  have hle : 2 ^ Nat.log2 n ≤ n := Nat.log2_self_le hpos
  have hlt : n < 2 ^ (Nat.log2 n + 1) := Nat.lt_log2_self
  apply le_antisymm _ hle
  by_contra hgt
  have hset : (n - 1).testBit (Nat.log2 n) = true :=
    Nat.testBit_of_two_pow_le_and_two_pow_add_one_gt (by omega) (by omega)
  rw [hset] at hclear
  cases hclear

/-- The assertion on alignments. -/
theorem isLineSize_of_and (h : (Alignment &&& (Alignment - 1) == 0) = true)
    (hne : Alignment ≠ 0) : IsLineSize Alignment := by
  have hpos : Alignment.toNat ≠ 0 := fun h0 => hne (BitVec.eq_of_toNat_eq h0)
  have hand : Alignment.toNat &&& (Alignment.toNat - 1) = 0 := by
    have hnat := congrArg BitVec.toNat (beq_iff_eq.mp h)
    rwa [BitVec.toNat_and, BitVec.toNat_sub_of_le (by bv_omega)] at hnat
  have hpow := eq_two_pow_of_and hpos hand
  refine ⟨Nat.log2 Alignment.toNat, ?_, ?_⟩
  · have hlt : 2 ^ Nat.log2 Alignment.toNat < 2 ^ 32 := hpow ▸ Alignment.isLt
    exact (Nat.pow_lt_pow_iff_right (by decide)).mp hlt
  · rw [← hpow, BitVec.ofNat_toNat, BitVec.setWidth_eq]

theorem alignStart_eq (hal : IsLineSize Alignment) : alignStart start Alignment =
    if start.toNat % Alignment.toNat ≠ 0 then alignTo Alignment start + Alignment else start := by
  have hmask : (start &&& (Alignment - 1)).toNat = start.toNat % Alignment.toNat := by
    obtain ⟨k, hk, hpow⟩ := hal.toNat
    have hone : 1 ≤ Alignment.toNat := hpow ▸ Nat.one_le_two_pow
    rw [BitVec.toNat_and, BitVec.toNat_sub_of_le (by bv_omega), hpow]
    exact Nat.and_two_pow_sub_one_eq_mod _ _
  have hzero : start &&& (Alignment - 1) = 0 ↔ start.toNat % Alignment.toNat = 0 := by
    rw [← BitVec.toNat_inj, hmask]
    rfl
  unfold alignStart
  simp only [ne_eq, hzero]
  rfl

/-- The next multiple of an alignment. -/
theorem toNat_alignStart (hal : IsLineSize Alignment)
    (hfit : (start.toNat + Alignment.toNat - 1) / Alignment.toNat * Alignment.toNat < 2 ^ 32) :
    (alignStart start Alignment).toNat =
      (start.toNat + Alignment.toNat - 1) / Alignment.toNat * Alignment.toNat := by
  obtain ⟨k, _, hpow⟩ := hal.toNat
  have hpos : 0 < Alignment.toNat := hpow ▸ Nat.two_pow_pos k
  have hdiv := Nat.div_add_mod start.toNat Alignment.toNat
  have hmod := Nat.mod_lt start.toNat hpos
  rw [alignStart_eq hal]
  split_ifs with h
  · have hup : (start.toNat + Alignment.toNat - 1) / Alignment.toNat =
        start.toNat / Alignment.toNat + 1 := by
      apply Nat.div_eq_of_lt_le
      · rw [Nat.add_mul, Nat.mul_comm]
        omega
      · rw [Nat.add_mul, Nat.add_mul, Nat.mul_comm]
        omega
    rw [hup, Nat.add_mul, Nat.one_mul] at hfit ⊢
    rw [BitVec.toNat_add, toNat_alignTo hal, Nat.mod_eq_of_lt hfit]
  · have hup : (start.toNat + Alignment.toNat - 1) / Alignment.toNat =
        start.toNat / Alignment.toNat := by
      apply Nat.div_eq_of_lt_le
      · rw [Nat.mul_comm]
        omega
      · rw [Nat.add_mul, Nat.mul_comm]
        omega
    rw [hup, Nat.mul_comm]
    omega

theorem dvd_alignStart (hal : IsLineSize Alignment) :
    Alignment.toNat ∣ (alignStart start Alignment).toNat := by
  obtain ⟨k, hk, hpow⟩ := hal.toNat
  rw [alignStart_eq hal]
  split_ifs with h
  · rw [BitVec.toNat_add, toNat_alignTo hal]
    have hword : Alignment.toNat ∣ 2 ^ 32 := hpow ▸ Nat.pow_dvd_pow 2 hk.le
    apply (Nat.dvd_mod_iff hword).mpr
    exact Nat.dvd_add (Nat.dvd_mul_left _ _) (Nat.dvd_refl _)
  · exact Nat.dvd_of_mod_eq_zero (not_not.mp h)

end Alignment

section Variables

/-- The ranges of variables that are placed from an address on. -/
def variablesFrom (start : Word) (globals : List Variable) : List ByteRange :=
  placesFrom (fun start Gv => alignStart start Gv.getAlignment)
    (fun start Gv => alignStart start Gv.getAlignment + BitVec.ofNat 32 Gv.typeAllocSize)
    (fun Gv address => ⟨address, Gv.typeAllocSize⟩) start globals

def endOfVariables (start : Word) (globals : List Variable) : Word :=
  globals.foldl
    (fun start Gv => alignStart start Gv.getAlignment + BitVec.ofNat 32 Gv.typeAllocSize) start

theorem variablesFrom_cons (start : Word) (Gv : Variable) (globals : List Variable) :
    variablesFrom start (Gv :: globals) =
      ⟨alignStart start Gv.getAlignment, Gv.typeAllocSize⟩ ::
        variablesFrom (alignStart start Gv.getAlignment + BitVec.ofNat 32 Gv.typeAllocSize)
          globals := rfl

theorem endOfVariables_cons (start : Word) (Gv : Variable) (globals : List Variable) :
    endOfVariables start (Gv :: globals) =
      endOfVariables (alignStart start Gv.getAlignment + BitVec.ofNat 32 Gv.typeAllocSize)
        globals := rfl

/-- The address of a variable that is placed without bound from an address on. -/
def startOf (start : ℕ) (Gv : Variable) : ℕ :=
  if Gv.getAlignment = 0 then 0
  else (start + Gv.getAlignment.toNat - 1) / Gv.getAlignment.toNat * Gv.getAlignment.toNat

def endOfData (start : ℕ) : List Variable → ℕ
  | [] => start
  | Gv :: globals => endOfData (startOf start Gv + Gv.typeAllocSize) globals

/-- All variables end in the address space. -/
def DataFits (start : ℕ) : List Variable → Prop
  | [] => True
  | Gv :: globals =>
    startOf start Gv + Gv.typeAllocSize < 2 ^ 32 ∧
      DataFits (startOf start Gv + Gv.typeAllocSize) globals

variable {globals : List Variable} {m m' : OrderedMap String Word} {start finish : Word}

theorem placeVariable_enters : Enters Variable.getName
    (fun start Gv => alignStart start Gv.getAlignment)
    (fun start Gv => alignStart start Gv.getAlignment + BitVec.ofNat 32 Gv.typeAllocSize)
    Prod.fst Prod.snd placeVariable := by
  intro placed Gv placed' h
  obtain ⟨_, _, hstep⟩ := Checked.bind_eq_ok.mp h
  cases hstep
  exact ⟨rfl, rfl⟩

theorem isLineSize_of_placeVariables
    (h : globals.foldlM placeVariable (m, start) = .ok (m', finish)) :
    ∀ Gv ∈ globals, Gv.getAlignment ≠ 0 → IsLineSize Gv.getAlignment := by
  refine Checked.foldlM_forall (fun placed Gv placed' hstep hne => ?_) h
  obtain ⟨_, hassert, -⟩ := Checked.bind_eq_ok.mp hstep
  exact isLineSize_of_and (of_assertThat hassert) hne

theorem toNat_placed {Gv : Variable} (hal : Gv.getAlignment ≠ 0 → IsLineSize Gv.getAlignment)
    (hfit : startOf start.toNat Gv + Gv.typeAllocSize < 2 ^ 32) :
    (alignStart start Gv.getAlignment).toNat = startOf start.toNat Gv ∧
      (alignStart start Gv.getAlignment + BitVec.ofNat 32 Gv.typeAllocSize).toNat =
        startOf start.toNat Gv + Gv.typeAllocSize := by
  have haddress : (alignStart start Gv.getAlignment).toNat = startOf start.toNat Gv := by
    unfold startOf at hfit ⊢
    split_ifs at hfit ⊢ with hzero
    · rw [hzero, alignStart_zero]
      rfl
    · exact toNat_alignStart (hal hzero) (by omega)
  refine ⟨haddress, ?_⟩
  rw [BitVec.toNat_add, haddress, BitVec.toNat_ofNat, Nat.mod_eq_of_lt (by omega)]
  omega

theorem le_startOf {Gv : Variable} (hne : Gv.getAlignment ≠ 0) (start : ℕ) :
    start ≤ startOf start Gv := by
  have hpos : 0 < Gv.getAlignment.toNat :=
    Nat.pos_of_ne_zero fun h0 => hne (BitVec.eq_of_toNat_eq h0)
  rw [startOf, if_neg hne]
  have hmod := Nat.mod_lt (start + Gv.getAlignment.toNat - 1) hpos
  have hdiv := Nat.div_add_mod' (start + Gv.getAlignment.toNat - 1) Gv.getAlignment.toNat
  omega

theorem le_endOfData {start : ℕ} (h : ∀ Gv ∈ globals, Gv.getAlignment ≠ 0) :
    start ≤ endOfData start globals := by
  induction globals generalizing start with
  | nil => exact le_rfl
  | cons Gv globals ih =>
    have hstart := le_startOf (h Gv List.mem_cons_self) start
    have hrest := @ih (startOf start Gv + Gv.typeAllocSize) fun Gv' hGv' =>
      h Gv' (List.mem_cons_of_mem Gv hGv')
    rw [endOfData]
    omega

theorem toNat_endOfVariables
    (hal : ∀ Gv ∈ globals, Gv.getAlignment ≠ 0 → IsLineSize Gv.getAlignment)
    (hfits : DataFits start.toNat globals) :
    (endOfVariables start globals).toNat = endOfData start.toNat globals := by
  induction globals generalizing start with
  | nil => rfl
  | cons Gv globals ih =>
    obtain ⟨-, hnext⟩ := toNat_placed (hal Gv List.mem_cons_self) hfits.1
    rw [endOfVariables_cons, endOfData, ← hnext]
    apply ih fun Gv' hGv' => hal Gv' (List.mem_cons_of_mem Gv hGv')
    rw [hnext]
    exact hfits.2

theorem endOfData_le {start : ℕ} (hstart : start ≤ 2 ^ 32) (hfits : DataFits start globals) :
    endOfData start globals ≤ 2 ^ 32 := by
  induction globals generalizing start with
  | nil => exact hstart
  | cons Gv globals ih => exact ih hfits.1.le hfits.2

/-- Variables with alignments are placed one after the other. -/
theorem placed_aligned (hspec : ∀ Gv ∈ globals, Gv.getAlignment ≠ 0)
    (hal : ∀ Gv ∈ globals, Gv.getAlignment ≠ 0 → IsLineSize Gv.getAlignment)
    (hfits : DataFits start.toNat globals) :
    Placed start.toNat (endOfData start.toNat globals) (variablesFrom start globals) := by
  induction globals generalizing start with
  | nil => exact placed_nil
  | cons Gv globals ih =>
    obtain ⟨haddress, hnext⟩ := toNat_placed (hal Gv List.mem_cons_self) hfits.1
    have hspec' := fun Gv' hGv' => hspec Gv' (List.mem_cons_of_mem Gv hGv')
    have hrest := ih hspec' (fun Gv' hGv' => hal Gv' (List.mem_cons_of_mem Gv hGv'))
      (hnext ▸ hfits.2)
    have hstart := le_startOf (hspec Gv List.mem_cons_self) start.toNat
    have hend := endOfData_le hfits.1.le hfits.2
    have hhead : Placed start.toNat (startOf start.toNat Gv + Gv.typeAllocSize)
        [⟨alignStart start Gv.getAlignment, Gv.typeAllocSize⟩] := by
      apply placed_singleton
      exact ⟨haddress ▸ hstart, haddress ▸ le_rfl⟩
    rw [hnext] at hrest
    exact hhead.append hrest (by omega) (le_endOfData hspec') hend

/-- If only empty variables come before a variable without an alignment, nothing is placed in
the way of the variables after it. -/
theorem placed_variables
    (hrestarts : globals.Pairwise fun Gv Gv' => Gv'.getAlignment = 0 → Gv.typeAllocSize = 0)
    (hal : ∀ Gv ∈ globals, Gv.getAlignment ≠ 0 → IsLineSize Gv.getAlignment)
    (hfits : DataFits start.toNat globals) :
    Placed 0 (endOfData start.toNat globals) (variablesFrom start globals) := by
  induction globals generalizing start with
  | nil => exact placed_nil
  | cons Gv globals ih =>
    obtain ⟨haddress, hnext⟩ := toNat_placed (hal Gv List.mem_cons_self) hfits.1
    obtain ⟨hafter, hrestarts⟩ := List.pairwise_cons.mp hrestarts
    have hal' := fun Gv' hGv' => hal Gv' (List.mem_cons_of_mem Gv hGv')
    by_cases hempty : Gv.typeAllocSize = 0
    · have hrest := ih hrestarts hal' (hnext ▸ hfits.2)
      rw [hnext] at hrest
      constructor
      · intro r hr hne
        rcases List.mem_cons.mp hr with rfl | hr
        · exact absurd hempty hne
        · exact hrest.within r hr hne
      · exact List.pairwise_cons.mpr ⟨fun _ _ => disjoint_of_empty hempty, hrest.disjoint⟩
    · have hspec : ∀ Gv' ∈ globals, Gv'.getAlignment ≠ 0 := fun Gv' hGv' hzero =>
        hempty (hafter Gv' hGv' hzero)
      have hrest := placed_aligned hspec hal' (hnext ▸ hfits.2)
      rw [hnext] at hrest
      have hhead : Placed 0 (startOf start.toNat Gv + Gv.typeAllocSize)
          [⟨alignStart start Gv.getAlignment, Gv.typeAllocSize⟩] := by
        apply placed_singleton
        exact ⟨Nat.zero_le _, haddress ▸ le_rfl⟩
      have hend := endOfData_le hfits.1.le hfits.2
      exact hhead.append hrest (Nat.zero_le _) (le_endOfData hspec) hend

theorem mem_variablesFrom {Gv : Variable} (h : Gv ∈ globals) (hzero : Gv.getAlignment = 0) :
    ⟨0, Gv.typeAllocSize⟩ ∈ variablesFrom start globals := by
  induction globals generalizing start with
  | nil => cases h
  | cons Gv' globals ih =>
    rcases List.mem_cons.mp h with rfl | h
    · rw [variablesFrom_cons, hzero, alignStart_zero]
      exact List.mem_cons_self
    · exact List.mem_cons_of_mem _ (ih h)

/-- Variables without an alignment are on top of each other. -/
theorem unspecified_of_disjoint (h : (variablesFrom start globals).Pairwise Disjoint) :
    globals.Pairwise fun Gv Gv' => Gv.getAlignment = 0 → Gv'.getAlignment = 0 →
      Gv.typeAllocSize = 0 ∨ Gv'.typeAllocSize = 0 := by
  induction globals generalizing start with
  | nil => exact .nil
  | cons Gv globals ih =>
    rw [variablesFrom_cons] at h
    obtain ⟨hhead, hrest⟩ := List.pairwise_cons.mp h
    refine List.pairwise_cons.mpr ⟨fun Gv' hGv' hzero hzero' => ?_, ih hrest⟩
    by_contra hne
    obtain ⟨hne, hne'⟩ := not_or.mp hne
    rw [hzero, alignStart_zero] at hhead
    refine not_disjoint hne' ?_ (hhead _ (mem_variablesFrom hGv' hzero'))
    exact occupies_address hne

end Variables

section Constants

/-- The ranges of constants that are placed from an address on. -/
def constantsFrom (start : Word) (sizes : List Word) : List ByteRange :=
  placesFrom (fun start _ => start) (fun start Entrysize => start + Entrysize / 8)
    (fun Entrysize address => ⟨address, Entrysize.toNat⟩) start sizes

theorem constantsFrom_cons (start Entrysize : Word) (sizes : List Word) :
    constantsFrom start (Entrysize :: sizes) =
      ⟨start, Entrysize.toNat⟩ :: constantsFrom (start + Entrysize / 8) sizes := rfl

/-- Of any two constants one is empty. -/
def OneConstant (sizes : List Word) : Prop :=
  sizes.Pairwise fun Entrysize Entrysize' => Entrysize = 0 ∨ Entrysize' = 0

instance (sizes : List Word) : Decidable (OneConstant sizes) :=
  inferInstanceAs (Decidable (sizes.Pairwise _))

variable {sizes : List Word} {start : Word}

theorem sizes_constantsFrom (start : Word) (sizes : List Word) :
    (constantsFrom start sizes).map ByteRange.size = sizes.map BitVec.toNat := by
  induction sizes generalizing start with
  | nil => rfl
  | cons Entrysize sizes ih => simp [constantsFrom_cons, ih]

/-- The first constant that is not empty is at the start. -/
theorem exists_first (start : Word) {Entrysize : Word} (h : Entrysize ∈ sizes)
    (hne : Entrysize ≠ 0) :
    ∃ r ∈ constantsFrom start sizes, r.address = start ∧ r.size ≠ 0 := by
  induction sizes generalizing start with
  | nil => cases h
  | cons Entrysize' sizes ih =>
    by_cases hzero : Entrysize' = 0
    · subst hzero
      have hmem : Entrysize ∈ sizes := (List.mem_cons.mp h).resolve_left hne
      obtain ⟨r, hr, haddress, hsize⟩ := ih (start + 0 / 8) hmem
      exact ⟨r, List.mem_cons_of_mem _ hr, haddress.trans (by simp), hsize⟩
    · exact ⟨⟨start, Entrysize'.toNat⟩, List.mem_cons_self, rfl, fun h0 =>
        hzero (BitVec.eq_of_toNat_eq h0)⟩

/-- The address advances by an eighth of a constant, so that the next one is placed inside it. -/
theorem disjoint_constantsFrom (h8 : ∀ Entrysize ∈ sizes, Entrysize % 8 = 0) :
    (constantsFrom start sizes).Pairwise Disjoint ↔ OneConstant sizes := by
  constructor
  · intro h
    induction sizes generalizing start with
    | nil => exact .nil
    | cons Entrysize sizes ih =>
      rw [constantsFrom_cons] at h
      obtain ⟨hhead, hrest⟩ := List.pairwise_cons.mp h
      refine List.pairwise_cons.mpr ⟨fun Entrysize' hmem => ?_,
        ih (fun E hE => h8 E (List.mem_cons_of_mem _ hE)) hrest⟩
      by_contra hne
      obtain ⟨hne, hne'⟩ := not_or.mp hne
      obtain ⟨r, hr, haddress, hsize⟩ := exists_first (start + Entrysize / 8) hmem hne'
      refine not_disjoint hsize ?_ (hhead r hr)
      have hpos : Entrysize.toNat ≠ 0 := fun h0 => hne (BitVec.eq_of_toNat_eq h0)
      rw [Occupies, haddress, BitVec.add_comm, BitVec.add_sub_cancel, BitVec.toNat_udiv]
      exact Nat.div_lt_self (Nat.pos_of_ne_zero hpos) (by decide)
  · intro h
    have hpairs : ((constantsFrom start sizes).map ByteRange.size).Pairwise
        fun size size' => size = 0 ∨ size' = 0 := by
      rw [sizes_constantsFrom, List.pairwise_map]
      exact h.imp fun hor => hor.imp (congrArg BitVec.toNat) (congrArg BitVec.toNat)
    apply (List.pairwise_map.mp hpairs).imp
    rintro r r' (hempty | hempty)
    · exact disjoint_of_empty hempty
    · exact (disjoint_of_empty hempty).symm

theorem placed_constants (start : Word) (h8 : ∀ Entrysize ∈ sizes, Entrysize % 8 = 0)
    (h : OneConstant sizes) :
    Placed start.toNat (start.toNat + (sizes.map BitVec.toNat).sum)
      (constantsFrom start sizes) where
  disjoint := (disjoint_constantsFrom h8).mpr h
  within := by
    clear h8
    induction sizes generalizing start with
    | nil => exact fun _ hr => nomatch hr
    | cons Entrysize sizes ih =>
      obtain ⟨hhead, hrest⟩ := List.pairwise_cons.mp h
      intro r hr hne
      rw [List.map_cons, List.sum_cons]
      rcases List.mem_cons.mp hr with rfl | hr
      · exact ⟨le_rfl, by dsimp only; omega⟩
      · by_cases hzero : Entrysize = 0
        · subst hzero
          have hwithin := ih _ hrest r hr hne
          simpa using hwithin
        · -- the constants after one that is not empty are empty
          have hsize : r.size ∈ sizes.map BitVec.toNat :=
            sizes_constantsFrom (start + Entrysize / 8) sizes ▸ List.mem_map_of_mem hr
          obtain ⟨Entrysize', hmem, hsize⟩ := List.mem_map.mp hsize
          rw [(hhead Entrysize' hmem).resolve_left hzero] at hsize
          exact absurd hsize.symm hne

end Constants

section Instructions

/-- The bytes of the code section that an instruction makes the pass leave behind. -/
def bytesOf (arch : ArchType) (F : Function) (I : Instr) : ℕ :=
  match I.pseudo, arch with
  | none, _ => 4
  | some _, .other => 0
  | some .instruction, _ => 4
  | some (.constpoolEntry _ _ size), .arm => (BitVec.ofInt 32 size).toNat
  | some (.jumptableAddrs (some JTindex) _), .arm =>
    4 * ((F.getJumpTableInfo.getD [])[JTindex]?.getD 0)
  | _, _ => 0

/-- The maps of the data sections and their cursor stay, but for ARM constant pools. -/
structure SameData (arch : ArchType) (s s' : Maps) : Prop where
  glvars : s'.Glvar2addr = s.Glvar2addr
  rodata : s'.RodataAddress = s.RodataAddress
  constants : arch = .riscv32 → s'.Cpe2addr = s.Cpe2addr

structure SameCode (s s' : Maps) : Prop where
  instructions : s'.Ins2addr = s.Ins2addr
  cursor : s'.CodeAddress = s.CodeAddress
  tables : s'.jumpTables = s.jumpTables

/-- What an instruction changes in the code section. -/
inductive CodeStep (s s' : BlockState) (I : Instr) (bytes : ℕ) : Prop
  | assigned (size : Word) (hsize : size.toNat = bytes) (halloc : allocSize I = bytes)
    (hnew : s.maps.Ins2addr.find? I.pointer = none)
    (hinstructions : s'.maps.Ins2addr = s.maps.Ins2addr.insertNew I.pointer s.maps.CodeAddress)
    (hcursor : s'.maps.CodeAddress = s.maps.CodeAddress + size)
    (htables : s'.maps.jumpTables = s.maps.jumpTables)
    (hskip : s'.SkipAddresses = s.SkipAddresses) (hlocal : s'.jumpTables = s.jumpTables)
  | table (targets : ℕ) (hbytes : bytes = 4 * targets) (hsame : SameCode s.maps s'.maps)
    (hskip : s'.SkipAddresses = s.SkipAddresses + BitVec.ofNat 32 targets)
    (hlocal : s'.jumpTables = s.jumpTables ++ [targets])
  | nothing (hbytes : bytes = 0) (hsame : SameCode s.maps s'.maps)
    (hskip : s'.SkipAddresses = s.SkipAddresses) (hlocal : s'.jumpTables = s.jumpTables)

/-- What holds before an address is assigned for some size. -/
def EffectStep (s s' : BlockState) (I : Instr) (bytes : ℕ) : Option Word → Prop
  | none => CodeStep s s' I bytes
  | some size => SameCode s.maps s'.maps ∧ s'.SkipAddresses = s.SkipAddresses ∧
      s'.jumpTables = s.jumpTables ∧ size.toNat = bytes ∧ allocSize I = bytes

variable {arch : ArchType} {F : Function} {I : Instr}

theorem SameData.refl (arch : ArchType) (s : Maps) : SameData arch s s := ⟨rfl, rfl, fun _ => rfl⟩

theorem SameData.trans {s₁ s₂ s₃ : Maps} (h : SameData arch s₁ s₂) (h' : SameData arch s₂ s₃) :
    SameData arch s₁ s₃ :=
  ⟨h'.glvars.trans h.glvars, h'.rodata.trans h.rodata,
    fun ha => (h'.constants ha).trans (h.constants ha)⟩

theorem trackConstant_same (arch : ArchType) {s s' : Maps} {entry : PoolConstant}
    (h : trackConstant s entry = .ok s') :
    SameData arch s s' ∧ SameCode s s' := by
  unfold trackConstant at h
  split at h
  · cases h
    exact ⟨.refl arch s, rfl, rfl, rfl⟩
  · split at h
    · cases h
    · cases h
      exact ⟨⟨rfl, rfl, fun _ => rfl⟩, rfl, rfl, rfl⟩

theorem enterConstant_same {s s' : Maps} {LabelID CPI : ℕ} {size : ℤ} {bytes : Word}
    (h : enterConstant F s LabelID CPI size = .ok (s', bytes)) :
    SameData .arm s s' ∧ SameCode s s' ∧ bytes = BitVec.ofInt 32 size := by
  unfold enterConstant at h
  split at h
  · cases h
  · obtain ⟨_, _, h⟩ := Checked.bind_eq_ok.mp h
    obtain ⟨s₁, h₁, h⟩ := Checked.bind_eq_ok.mp h
    obtain ⟨_, _, h⟩ := Checked.bind_eq_ok.mp h
    obtain ⟨hdata, hcode⟩ := trackConstant_same .arm h₁
    cases h
    exact ⟨⟨hdata.glvars, hdata.rodata, nofun⟩,
      ⟨hcode.instructions, hcode.cursor, hcode.tables⟩, rfl⟩

theorem sizeOfTable_eq {JTI : Option ℕ} {size : ℤ} {targets : ℕ}
    (h : sizeOfTable F JTI size = .ok targets) :
    ∃ JTindex, JTI = some JTindex ∧ targets = (F.getJumpTableInfo.getD [])[JTindex]?.getD 0 := by
  unfold sizeOfTable at h
  split at h
  · cases h
  · split at h
    · cases h
    · next JTindex _ MJTEs hinfo =>
      obtain ⟨targets', hread, h⟩ := Checked.bind_eq_ok.mp h
      obtain ⟨_, _, h⟩ := Checked.bind_eq_ok.mp h
      obtain ⟨_, _, h⟩ := Checked.bind_eq_ok.mp h
      cases h
      refine ⟨JTindex, rfl, ?_⟩
      rw [hinfo, Option.getD_some, Checked.getElem?_of_read hread, Option.getD_some]

/-- The state before an address is assigned, and the size that it is assigned for. -/
theorem runOnPseudo_cases {s s' : BlockState} {pseudo : PseudoClass} {size : Option Word}
    (hpseudo : I.pseudo = some pseudo) (h : runOnPseudo arch F s I pseudo = .ok (s', size)) :
    SameData arch s.maps s'.maps ∧ EffectStep s s' I (bytesOf arch F I) size := by
  have heffect {s' : BlockState} {size : Option Word}
      (h : (do assertThat I.isTransient "Non-effect pseudo might have effect?"
               .ok (s, none)) = Except.ok (s', size)) : s' = s ∧ size = none := by
    obtain ⟨_, _, h⟩ := Checked.bind_eq_ok.mp h
    cases h
    exact ⟨rfl, rfl⟩
  cases arch with
  | other =>
    cases h
    exact ⟨.refl _ _, .nothing (by simp [bytesOf, hpseudo]) ⟨rfl, rfl, rfl⟩ rfl rfl⟩
  | riscv32 =>
    cases pseudo with
    | constpoolEntry | jumptableAddrs | unhandled => cases h
    | instruction =>
      cases h
      refine ⟨.refl _ _, ⟨rfl, rfl, rfl⟩, rfl, rfl, ?_, ?_⟩
      · simp [bytesOf, hpseudo]
      · simp [bytesOf, allocSize, hpseudo]
    | withoutEffect =>
      obtain ⟨rfl, rfl⟩ := heffect h
      exact ⟨.refl _ _, .nothing (by simp [bytesOf, hpseudo]) ⟨rfl, rfl, rfl⟩ rfl rfl⟩
  | arm =>
    cases pseudo with
    | unhandled => cases h
    | instruction =>
      cases h
      refine ⟨.refl _ _, ⟨rfl, rfl, rfl⟩, rfl, rfl, ?_, ?_⟩
      · simp [bytesOf, hpseudo]
      · simp [bytesOf, allocSize, hpseudo]
    | withoutEffect =>
      obtain ⟨rfl, rfl⟩ := heffect h
      exact ⟨.refl _ _, .nothing (by simp [bytesOf, hpseudo]) ⟨rfl, rfl, rfl⟩ rfl rfl⟩
    | constpoolEntry LabelID CPI size =>
      obtain ⟨⟨maps, bytes⟩, hconstant, h⟩ := Checked.bind_eq_ok.mp h
      cases h
      obtain ⟨hdata, hcode, rfl⟩ := enterConstant_same hconstant
      refine ⟨hdata, hcode, rfl, rfl, ?_, ?_⟩
      · simp only [bytesOf, hpseudo]
      · simp only [bytesOf, allocSize, hpseudo]
    | jumptableAddrs JTI size =>
      obtain ⟨targets, htable, h⟩ := Checked.bind_eq_ok.mp h
      cases h
      obtain ⟨JTindex, rfl, htargets⟩ := sizeOfTable_eq htable
      refine ⟨⟨rfl, rfl, fun _ => rfl⟩, .table targets ?_ ⟨rfl, rfl, rfl⟩ rfl rfl⟩
      simp only [bytesOf, hpseudo, htargets]

theorem runOnEffect_cases {s s' : BlockState} {size : Option Word}
    (h : runOnEffect arch F s I = .ok (s', size)) :
    SameData arch s.maps s'.maps ∧ EffectStep s s' I (bytesOf arch F I) size := by
  unfold runOnEffect at h
  split at h
  · next hpseudo =>
    cases h
    refine ⟨.refl _ _, ⟨rfl, rfl, rfl⟩, rfl, rfl, ?_, ?_⟩
    · simp [bytesOf, hpseudo]
    · simp [bytesOf, allocSize, hpseudo]
  · next pseudo hpseudo => exact runOnPseudo_cases hpseudo h

theorem assignAddress_eq {s s' : Maps} {size : Word} (h : assignAddress s I size = .ok s') :
    s.Ins2addr.find? I.pointer = none ∧ s' = { s with
      Ins2addr := s.Ins2addr.insertNew I.pointer s.CodeAddress
      Addr2ins := s.Addr2ins.insertNew s.CodeAddress I.pointer
      CodeAddress := s.CodeAddress + size } := by
  obtain ⟨_, _, h⟩ := Checked.bind_eq_ok.mp h
  obtain ⟨_, hnew, h⟩ := Checked.bind_eq_ok.mp h
  obtain ⟨_, _, h⟩ := Checked.bind_eq_ok.mp h
  cases h
  exact ⟨by simpa using of_assertThat hnew, rfl⟩

/-- Each instruction is placed at the cursor, adds a jump table to its block or does nothing. -/
theorem runOnMachineInstr_cases {s s' : BlockState} (h : runOnMachineInstr arch F s I = .ok s') :
    SameData arch s.maps s'.maps ∧ CodeStep s s' I (bytesOf arch F I) := by
  obtain ⟨_, _, h⟩ := Checked.bind_eq_ok.mp h
  obtain ⟨⟨s₁, size⟩, h₁, h⟩ := Checked.bind_eq_ok.mp h
  obtain ⟨hdata, hcode⟩ := runOnEffect_cases h₁
  replace hdata : SameData arch s.maps s₁.maps := ⟨hdata.glvars, hdata.rodata, hdata.constants⟩
  cases size with
  | none =>
    cases h
    refine ⟨hdata, ?_⟩
    cases hcode with
    | assigned size hsize halloc hnew hinstructions hcursor htables hskip hlocal =>
      exact .assigned size hsize halloc hnew hinstructions hcursor htables hskip hlocal
    | table targets hbytes hsame hskip hlocal =>
      exact .table targets hbytes ⟨hsame.instructions, hsame.cursor, hsame.tables⟩ hskip hlocal
    | nothing hbytes hsame hskip hlocal =>
      exact .nothing hbytes ⟨hsame.instructions, hsame.cursor, hsame.tables⟩ hskip hlocal
  | some size =>
    obtain ⟨maps, hassign, h⟩ := Checked.bind_eq_ok.mp h
    cases h
    obtain ⟨hsame, hskip, hlocal, hsize, halloc⟩ := hcode
    obtain ⟨hnew, rfl⟩ := assignAddress_eq hassign
    refine ⟨⟨hdata.glvars, hdata.rodata, hdata.constants⟩,
      .assigned size hsize halloc (hsame.instructions ▸ hnew) ?_ ?_ hsame.tables hskip hlocal⟩
    · exact congrArg₂ (fun m (a : Word) => m.insertNew I.pointer a) hsame.instructions hsame.cursor
    · exact congrArg (· + size) hsame.cursor

end Instructions

section Runs

variable {arch : ArchType} {F : Function} {s s' : Maps} {done : List Instr} {start : ℕ}

/-- The instructions that have been seen and the jump tables lie one after the other up to the
cursor. -/
structure Laid (start : ℕ) (done : List Instr) (s : Maps) : Prop where
  placed : Placed start s.CodeAddress.toNat (done.filterMap (instrRange s) ++ s.jumpTables)
  known : ∀ p address, s.Ins2addr.find? p = some address → p ∈ done.map Instr.pointer
  le : start ≤ s.CodeAddress.toNat

theorem Laid.skip {I : Instr} (h : Laid start done s) (hsame : SameCode s s')
    (hI : I.pointer ∉ done.map Instr.pointer) : Laid start (done ++ [I]) s' := by
  have hnone : s.Ins2addr.find? I.pointer = none := by
    cases hfind : s.Ins2addr.find? I.pointer with
    | none => rfl
    | some address => exact absurd (h.known _ _ hfind) hI
  have hranges : instrRange s' = instrRange s := by
    funext I
    rw [instrRange, hsame.instructions, instrRange]
  constructor
  · rw [hranges, hsame.cursor, hsame.tables, List.filterMap_append]
    simpa [instrRange, hnone] using h.placed
  · intro p address hp
    rw [hsame.instructions] at hp
    rw [List.map_append]
    exact List.mem_append_left _ (h.known p address hp)
  · rw [hsame.cursor]
    exact h.le

theorem Laid.assign {I : Instr} {size : Word} (h : Laid start done s)
    (hI : I.pointer ∉ done.map Instr.pointer) (hsize : size.toNat = allocSize I)
    (hnew : s.Ins2addr.find? I.pointer = none)
    (hinstructions : s'.Ins2addr = s.Ins2addr.insertNew I.pointer s.CodeAddress)
    (hcursor : s'.CodeAddress = s.CodeAddress + size) (htables : s'.jumpTables = s.jumpTables)
    (hfit : s.CodeAddress.toNat + size.toNat < 2 ^ 32) : Laid start (done ++ [I]) s' := by
  have hend : s'.CodeAddress.toNat = s.CodeAddress.toNat + size.toNat := by
    rw [hcursor, BitVec.toNat_add, Nat.mod_eq_of_lt hfit]
  have hold : done.filterMap (instrRange s') = done.filterMap (instrRange s) := by
    apply List.filterMap_congr
    intro J hJ
    have hne : I.pointer ≠ J.pointer := fun heq => hI (heq ▸ List.mem_map_of_mem hJ)
    rw [instrRange, hinstructions, OrderedMap.find?_insertNew_of_ne hne, instrRange]
  have hown : instrRange s' I = some ⟨s.CodeAddress, allocSize I⟩ := by
    rw [instrRange, hinstructions, OrderedMap.find?_insertNew_of_none hnew, Option.map_some]
  have hlast : Placed s.CodeAddress.toNat s'.CodeAddress.toNat
      [⟨s.CodeAddress, allocSize I⟩] := by
    apply placed_singleton
    exact ⟨le_rfl, by rw [hend, hsize]⟩
  have hall := h.placed.append hlast h.le (by omega) (by omega)
  constructor
  · rw [htables, List.filterMap_append, hold]
    refine hall.perm ?_
    simp only [List.filterMap_cons, hown, List.filterMap_nil, List.append_assoc]
    exact List.perm_append_comm.append_left _
  · intro p address hp
    rw [List.map_append, List.mem_append]
    rw [hinstructions] at hp
    by_cases hne : I.pointer = p
    · exact .inr (List.mem_singleton.mpr hne.symm)
    · rw [OrderedMap.find?_insertNew_of_ne hne] at hp
      exact .inl (h.known p address hp)
  · exact h.le.trans (by omega)

/-- Inside a block the jump tables of the block are still to be placed. -/
structure LaidInBlock (start : ℕ) (done : List Instr) (bytes : ℕ) (s : BlockState) : Prop where
  laid : Laid start done s.maps
  skip : s.SkipAddresses.toNat = s.jumpTables.sum
  bytes : s.maps.CodeAddress.toNat + 4 * s.jumpTables.sum = bytes

theorem LaidInBlock.step {s s' : BlockState} {I : Instr} {bytes : ℕ}
    (h : LaidInBlock start done bytes s) (hI : I.pointer ∉ done.map Instr.pointer)
    (hrun : runOnMachineInstr arch F s I = .ok s') (hfit : bytes + bytesOf arch F I < 2 ^ 32) :
    LaidInBlock start (done ++ [I]) (bytes + bytesOf arch F I) s' := by
  have hbytes := h.bytes
  cases (runOnMachineInstr_cases hrun).2 with
  | assigned size hsize halloc hnew hinstructions hcursor htables hskip hlocal =>
    refine ⟨h.laid.assign hI (hsize.trans halloc.symm) hnew hinstructions hcursor htables
      (by omega), by rw [hskip, hlocal, h.skip], ?_⟩
    rw [hcursor, hlocal, BitVec.toNat_add, Nat.mod_eq_of_lt (by omega)]
    omega
  | table targets hbytesI hsame hskip hlocal =>
    refine ⟨h.laid.skip hsame hI, ?_, ?_⟩
    · rw [hskip, hlocal, List.sum_append, List.sum_singleton, BitVec.toNat_add, h.skip,
        BitVec.toNat_ofNat, Nat.mod_eq_of_lt (a := targets) (by omega),
        Nat.mod_eq_of_lt (by omega)]
    · rw [hsame.cursor, hlocal, List.sum_append, List.sum_singleton]
      omega
  | nothing hbytesI hsame hskip hlocal =>
    refine ⟨h.laid.skip hsame hI, by rw [hskip, hlocal, h.skip], ?_⟩
    rw [hsame.cursor, hlocal]
    omega

def bytesIn (arch : ArchType) (F : Function) (instructions : List Instr) : ℕ :=
  (instructions.map (bytesOf arch F)).sum

theorem LaidInBlock.run {s s' : BlockState} {instructions : List Instr} {bytes : ℕ}
    (h : LaidInBlock start done bytes s)
    (hnodup : ((done ++ instructions).map Instr.pointer).Nodup)
    (hrun : instructions.foldlM (runOnMachineInstr arch F) s = .ok s')
    (hfit : bytes + bytesIn arch F instructions < 2 ^ 32) :
    LaidInBlock start (done ++ instructions) (bytes + bytesIn arch F instructions) s' := by
  induction instructions generalizing done bytes s with
  | nil =>
    cases hrun
    simpa [bytesIn] using h
  | cons I instructions ih =>
    rw [List.foldlM_cons] at hrun
    obtain ⟨s₁, h₁, hrun⟩ := Checked.bind_eq_ok.mp hrun
    have hsum : bytesIn arch F (I :: instructions) =
        bytesOf arch F I + bytesIn arch F instructions := by simp [bytesIn]
    have hI : I.pointer ∉ done.map Instr.pointer := by
      intro hmem
      rw [List.map_append, List.map_cons] at hnodup
      exact List.disjoint_of_nodup_append hnodup hmem List.mem_cons_self
    have hstep := h.step hI h₁ (by omega)
    rw [hsum, ← Nat.add_assoc, List.append_cons]
    exact ih hstep (by rwa [← List.append_cons]) hrun (by omega)

theorem placed_tables (tables : List ℕ) (address : Word)
    (hfit : address.toNat + 4 * tables.sum < 2 ^ 32) :
    Placed address.toNat (address.toNat + 4 * tables.sum) (tableRanges address tables) := by
  induction tables generalizing address with
  | nil => exact placed_nil
  | cons targets tables ih =>
    rw [List.sum_cons] at hfit ⊢
    have hnext : (address + BitVec.ofNat 32 targets * 4).toNat = address.toNat + 4 * targets := by
      rw [BitVec.toNat_add, BitVec.toNat_mul, BitVec.toNat_ofNat,
        Nat.mod_eq_of_lt (a := targets) (by omega)]
      have hfour : (4 : Word).toNat = 4 := rfl
      rw [hfour, Nat.mod_eq_of_lt (a := targets * 4) (by omega), Nat.mod_eq_of_lt (by omega)]
      omega
    have hrest := ih (address + BitVec.ofNat 32 targets * 4) (by omega)
    rw [hnext] at hrest
    have hhead : Placed address.toNat (address.toNat + 4 * targets) [⟨address, 4 * targets⟩] :=
      placed_singleton ⟨le_rfl, le_rfl⟩
    have hall := hhead.append hrest (by omega) (by omega) (by omega)
    exact hall.mono le_rfl (by omega)

/-- The cursor stands behind the bytes of the instructions that have been seen. -/
structure LaidTo (start : ℕ) (done : List Instr) (bytes : ℕ) (s : Maps) : Prop where
  laid : Laid start done s
  bytes : s.CodeAddress.toNat = bytes

theorem LaidTo.block {MBB : List Instr} {bytes : ℕ} (h : LaidTo start done bytes s)
    (hnodup : ((done ++ MBB).map Instr.pointer).Nodup)
    (hrun : runOnMachineBasicBlock arch F s MBB = .ok s')
    (hfit : bytes + bytesIn arch F MBB < 2 ^ 32) :
    LaidTo start (done ++ MBB) (bytes + bytesIn arch F MBB) s' := by
  obtain ⟨s₁, h₁, hrun⟩ := Checked.bind_eq_ok.mp hrun
  cases hrun
  have hstart : LaidInBlock start done bytes ⟨s, 0, 0, []⟩ := ⟨h.laid, rfl, h.bytes⟩
  have hblock := hstart.run hnodup h₁ hfit
  have hbytes := hblock.bytes
  have hend : (s₁.maps.CodeAddress + s₁.SkipAddresses * 4).toNat =
      bytes + bytesIn arch F MBB := by
    have hfour : (4 : Word).toNat = 4 := rfl
    rw [BitVec.toNat_add, BitVec.toNat_mul, hblock.skip, hfour,
      Nat.mod_eq_of_lt (a := s₁.jumpTables.sum * 4) (by omega), Nat.mod_eq_of_lt (by omega)]
    omega
  have htables := placed_tables s₁.jumpTables s₁.maps.CodeAddress
    (by omega)
  refine ⟨⟨?_, hblock.laid.known, ?_⟩, hend⟩
  · have hall := hblock.laid.placed.append htables hblock.laid.le (by omega) (by omega)
    rw [List.append_assoc, hbytes] at hall
    dsimp only
    rw [hend]
    exact hall
  · dsimp only
    rw [hend]
    exact hblock.laid.le.trans (by omega)

theorem LaidTo.blocks {basicBlocks : List (List Instr)} {bytes : ℕ}
    (h : LaidTo start done bytes s)
    (hnodup : ((done ++ basicBlocks.flatten).map Instr.pointer).Nodup)
    (hrun : basicBlocks.foldlM (runOnMachineBasicBlock arch F) s = .ok s')
    (hfit : bytes + bytesIn arch F basicBlocks.flatten < 2 ^ 32) :
    LaidTo start (done ++ basicBlocks.flatten) (bytes + bytesIn arch F basicBlocks.flatten) s' := by
  induction basicBlocks generalizing done bytes s with
  | nil =>
    cases hrun
    simpa [bytesIn] using h
  | cons MBB basicBlocks ih =>
    rw [List.foldlM_cons] at hrun
    obtain ⟨s₁, h₁, hrun⟩ := Checked.bind_eq_ok.mp hrun
    have hsum : bytesIn arch F (MBB :: basicBlocks).flatten =
        bytesIn arch F MBB + bytesIn arch F basicBlocks.flatten := by simp [bytesIn]
    rw [List.flatten_cons, ← List.append_assoc] at hnodup ⊢
    rw [List.flatten_cons] at hsum hfit
    rw [hsum, ← Nat.add_assoc]
    have hblock := h.block (hnodup.sublist ((List.sublist_append_left _ _).map _)) h₁ (by omega)
    exact ih hblock hnodup hrun (by omega)

theorem trackInitializer_same {globals : List Variable} {Gl2ad : String × Word}
    (h : trackInitializer globals s Gl2ad = .ok s') :
    SameData .riscv32 s s' ∧ SameCode s s' := by
  unfold trackInitializer at h
  split at h
  · split at h
    · cases h
    · cases h
      exact ⟨⟨rfl, rfl, fun _ => rfl⟩, rfl, rfl, rfl⟩
  · cases h
    exact ⟨⟨rfl, rfl, fun _ => rfl⟩, rfl, rfl, rfl⟩
  · cases h
    exact ⟨.refl _ _, rfl, rfl, rfl⟩

/-- After the initialization only variables have addresses. -/
theorem doInitialization_cases {globals : List Variable} {CodeStartAddress : Word}
    (h : doInitialization globals (.new CodeStartAddress) = .ok s) :
    globals.foldlM placeVariable (.empty, startOfData) = .ok (s.Glvar2addr, s.RodataAddress) ∧
      s.Cpe2addr = .empty ∧ SameCode (.new CodeStartAddress) s := by
  obtain ⟨⟨placed, finish⟩, hplaced, h⟩ := Checked.bind_eq_ok.mp h
  obtain ⟨s₁, h₁, h⟩ := Checked.bind_eq_ok.mp h
  cases h
  have hsame := Checked.foldlM_invariant (H := fun s' =>
      SameData .riscv32 { Maps.new CodeStartAddress with Glvar2addr := placed } s' ∧
        SameCode (.new CodeStartAddress) s') (by
    rintro s₁ Gl2ad s₂ - ⟨hdata, hcode⟩ hstep
    obtain ⟨hdata', hcode'⟩ := trackInitializer_same hstep
    exact ⟨hdata.trans hdata', hcode'.instructions.trans hcode.instructions,
      hcode'.cursor.trans hcode.cursor, hcode'.tables.trans hcode.tables⟩)
    ⟨⟨rfl, rfl, fun _ => rfl⟩, rfl, rfl, rfl⟩ h₁
  obtain ⟨hdata, hcode⟩ := hsame
  refine ⟨?_, hdata.constants rfl, hcode.instructions, hcode.cursor, hcode.tables⟩
  exact hplaced.trans (by rw [hdata.glvars])

theorem placeConstant_enters (F : Function) : Enters
    (fun entry => (toLex (F.getFunctionNumber, entry.2) : ℕ ×ₗ ℕ)) (fun start _ => start)
    (fun start entry => start + entry.1.sizeInBytes / 8) Maps.Cpe2addr Maps.RodataAddress
    (placeConstant F) := by
  intro s entry s' h
  obtain ⟨_, _, h⟩ := Checked.bind_eq_ok.mp h
  cases h
  exact ⟨rfl, rfl⟩

/-- The constant pool of a function changes nothing in the code section. -/
theorem placeConstants_same (h : placeConstants arch F s = .ok s') :
    s'.Glvar2addr = s.Glvar2addr ∧ SameCode s s' := by
  unfold placeConstants at h
  split at h
  · refine Checked.foldlM_invariant (H := fun s' => s'.Glvar2addr = s.Glvar2addr ∧ SameCode s s')
      ?_ ⟨rfl, rfl, rfl, rfl⟩ h
    rintro s₁ entry s₂ - ⟨hdata, hcode⟩ hstep
    obtain ⟨_, _, hstep⟩ := Checked.bind_eq_ok.mp hstep
    cases hstep
    exact ⟨hdata, hcode.instructions, hcode.cursor, hcode.tables⟩
  · cases h
    exact ⟨rfl, rfl, rfl, rfl⟩

theorem runOnBlocks_same {basicBlocks : List (List Instr)}
    (h : basicBlocks.foldlM (runOnMachineBasicBlock arch F) s = .ok s') : SameData arch s s' := by
  refine Checked.foldlM_invariant (H := SameData arch s) ?_ (.refl arch s) h
  rintro s₁ MBB s₂ - hdata hstep
  obtain ⟨s₃, h₃, hstep⟩ := Checked.bind_eq_ok.mp hstep
  have hblock := Checked.foldlM_invariant (H := fun b : BlockState => SameData arch s b.maps) (by
    rintro b I b' - hdata hstep
    exact hdata.trans (runOnMachineInstr_cases hstep).1) hdata h₃
  cases hstep
  exact ⟨hblock.glvars, hblock.rodata, hblock.constants⟩

theorem runOnFunctions_glvars {functions : List Function}
    (h : functions.foldlM (runOnMachineFunction arch) s = .ok s') :
    s'.Glvar2addr = s.Glvar2addr := by
  refine Checked.foldlM_invariant (H := fun s' => s'.Glvar2addr = s.Glvar2addr) ?_ rfl h
  rintro s₁ F s₂ - hdata hstep
  obtain ⟨s₃, h₃, hstep⟩ := Checked.bind_eq_ok.mp hstep
  rw [(runOnBlocks_same hstep).glvars, (placeConstants_same h₃).1, hdata]

def Function.poolSizes (F : Function) : List Word := F.getConstants.map PoolConstant.sizeInBytes

theorem constants_aligned (h : placeConstants .riscv32 F s = .ok s') :
    ∀ Entrysize ∈ F.poolSizes, Entrysize % 8 = 0 := by
  have hall := Checked.foldlM_forall (A := fun entry => entry.1.sizeInBytes % 8 = 0) (by
    intro s entry s' hstep
    obtain ⟨_, hassert, -⟩ := Checked.bind_eq_ok.mp hstep
    exact beq_iff_eq.mp (of_assertThat hassert)) h
  intro Entrysize hmem
  obtain ⟨entry, hentry, rfl⟩ := List.mem_map.mp hmem
  obtain ⟨i, hi, heq⟩ := List.getElem_of_mem hentry
  exact hall (entry, i) (List.mem_zipIdx_iff_getElem?.mpr (heq ▸ List.getElem?_eq_getElem hi))

/-- The constants of a function are placed from the address for read-only data on. -/
theorem ranges_placeConstants
    (hfresh : ∀ i, s.Cpe2addr.find? (toLex (F.getFunctionNumber, i)) = none)
    (h : placeConstants .riscv32 F s = .ok s') :
    constantRanges s' F = constantsFrom s.RodataAddress F.poolSizes ∧
      s'.RodataAddress =
        F.poolSizes.foldl (fun start Entrysize => start + Entrysize / 8) s.RodataAddress ∧
      ∀ entry ∈ F.getConstants.zipIdx, ∃ address,
        s'.Cpe2addr.find? (toLex (F.getFunctionNumber, entry.2)) = some address := by
  have hkeys : (F.getConstants.zipIdx.map
      fun entry => (toLex (F.getFunctionNumber, entry.2) : ℕ ×ₗ ℕ)).Nodup := by
    have hindices : (F.getConstants.zipIdx.map Prod.snd).Nodup := by
      rw [List.zipIdx_map_snd]
      exact List.nodup_range'
    have hpairs := hindices.map (f := fun i => (toLex (F.getFunctionNumber, i) : ℕ ×ₗ ℕ))
      fun i j heq => congrArg Prod.snd (toLex.injective heq)
    rwa [List.map_map] at hpairs
  have hsizes : F.poolSizes = F.getConstants.zipIdx.map fun entry => entry.1.sizeInBytes := by
    rw [Function.poolSizes]
    conv_lhs => rw [← List.zipIdx_map_fst 0 F.getConstants]
    rw [List.map_map]
    rfl
  refine ⟨?_, ?_, ?_⟩
  · rw [hsizes, constantsFrom, placesFrom_map]
    exact KeyedPlacement.filterMap_eq (placeConstant_enters F) h hkeys fun entry _ =>
      hfresh entry.2
  · rw [hsizes, List.foldl_map]
    exact KeyedPlacement.cursor_eq (placeConstant_enters F) h
  · intro entry hentry
    obtain ⟨address, haddress, -⟩ := KeyedPlacement.find?_of_mem (P := fun _ _ => True)
      (placeConstant_enters F) h (fun _ _ _ => trivial) hkeys (fun entry _ => hfresh entry.2)
      entry hentry
    exact ⟨address, haddress⟩

theorem constantRanges_congr
    (hkeep : ∀ k address, s.Cpe2addr.find? k = some address → s'.Cpe2addr.find? k = some address)
    (hfound : ∀ entry ∈ F.getConstants.zipIdx, ∃ address,
      s.Cpe2addr.find? (toLex (F.getFunctionNumber, entry.2)) = some address) :
    constantRanges s' F = constantRanges s F := by
  apply List.filterMap_congr
  intro entry hentry
  obtain ⟨address, haddress⟩ := hfound entry hentry
  rw [constantRange, constantRange, haddress, hkeep _ _ haddress]

/-- The constant pools of the functions follow one another. -/
theorem pool_runOnFunctions {functions : List Function}
    (hnodup : (functions.map Function.getFunctionNumber).Nodup)
    (hfresh : ∀ F ∈ functions, ∀ i, s.Cpe2addr.find? (toLex (F.getFunctionNumber, i)) = none)
    (h : functions.foldlM (runOnMachineFunction .riscv32) s = .ok s') :
    functions.flatMap (constantRanges s') =
        constantsFrom s.RodataAddress (functions.flatMap Function.poolSizes) ∧
      (∀ k address, s.Cpe2addr.find? k = some address → s'.Cpe2addr.find? k = some address) ∧
      ∀ Entrysize ∈ functions.flatMap Function.poolSizes, Entrysize % 8 = 0 := by
  induction functions generalizing s with
  | nil =>
    cases h
    exact ⟨rfl, fun _ _ hk => hk, fun _ h => nomatch h⟩
  | cons F functions ih =>
    rw [List.foldlM_cons] at h
    obtain ⟨s₁, h₁, h⟩ := Checked.bind_eq_ok.mp h
    obtain ⟨s₂, h₂, h₁⟩ := Checked.bind_eq_ok.mp h₁
    obtain ⟨hnot, hnodup⟩ := List.nodup_cons.mp hnodup
    have hblocks := runOnBlocks_same h₁
    have hCpe := hblocks.constants rfl
    obtain ⟨hown, hcursor, hfound⟩ := ranges_placeConstants (hfresh F List.mem_cons_self) h₂
    have hfresh₁ : ∀ F' ∈ functions, ∀ i,
        s₁.Cpe2addr.find? (toLex (F'.getFunctionNumber, i)) = none := by
      intro F' hF' i
      rw [hCpe, KeyedPlacement.other (placeConstant_enters F) h₂]
      · exact hfresh F' (List.mem_cons_of_mem F hF') i
      · intro hmem
        obtain ⟨entry, -, heq⟩ := List.mem_map.mp hmem
        have hnumber : F.getFunctionNumber = F'.getFunctionNumber :=
          congrArg (fun k => (ofLex k).1) heq
        exact hnot (hnumber ▸ List.mem_map_of_mem hF')
    obtain ⟨hrest, hkeep, h8⟩ := ih hnodup hfresh₁ h
    have hpool : constantRanges s' F = constantRanges s₂ F :=
      constantRanges_congr (fun k address hk => hkeep k address (hCpe ▸ hk)) hfound
    refine ⟨?_, fun k address hk => hkeep k address ?_, ?_⟩
    · rw [List.flatMap_cons, List.flatMap_cons, hpool, hown, hrest, hblocks.rodata, hcursor]
      exact (placesFrom_append _ _ _).symm
    · rw [hCpe]
      exact KeyedPlacement.keeps (placeConstant_enters F) h₂ hk
    · intro Entrysize hmem
      rcases List.mem_append.mp (List.flatMap_cons ▸ hmem) with hmem | hmem
      · exact constants_aligned h₂ Entrysize hmem
      · exact h8 Entrysize hmem

theorem LaidTo.functions {functions : List Function} {bytes : ℕ} (h : LaidTo start done bytes s)
    (hnodup : ((done ++ functions.flatMap Function.instructions).map Instr.pointer).Nodup)
    (hrun : functions.foldlM (runOnMachineFunction arch) s = .ok s')
    (hfit : bytes + (functions.map fun F => bytesIn arch F F.instructions).sum < 2 ^ 32) :
    LaidTo start (done ++ functions.flatMap Function.instructions)
      (bytes + (functions.map fun F => bytesIn arch F F.instructions).sum) s' := by
  induction functions generalizing done bytes s with
  | nil =>
    cases hrun
    simpa using h
  | cons F functions ih =>
    rw [List.foldlM_cons] at hrun
    obtain ⟨s₁, h₁, hrun⟩ := Checked.bind_eq_ok.mp hrun
    obtain ⟨s₂, h₂, h₁⟩ := Checked.bind_eq_ok.mp h₁
    rw [List.map_cons, List.sum_cons] at hfit ⊢
    rw [List.flatMap_cons, ← List.append_assoc] at hnodup ⊢
    have hsame := (placeConstants_same h₂).2
    have hstart : LaidTo start done bytes s₂ := by
      refine ⟨⟨?_, ?_, hsame.cursor ▸ h.laid.le⟩, hsame.cursor ▸ h.bytes⟩
      · have hranges : instrRange s₂ = instrRange s := by
          funext I
          rw [instrRange, hsame.instructions, instrRange]
        rw [hranges, hsame.cursor, hsame.tables]
        exact h.laid.placed
      · rw [hsame.instructions]
        exact h.laid.known
    have hown : LaidTo start (done ++ F.instructions)
        (bytes + bytesIn arch F F.instructions) s₁ := by
      refine hstart.blocks (hnodup.sublist ((List.sublist_append_left _ _).map _)) h₁ ?_
      exact lt_of_le_of_lt (Nat.add_le_add_left (Nat.le_add_right _ _) bytes) hfit
    rw [← Nat.add_assoc]
    exact ih hown hnodup hrun (by omega)

end Runs

section Layout

variable {M : Module} {s : Maps}

def Module.poolSizes (M : Module) : List Word :=
  match M.arch with
  | .riscv32 => M.functions.flatMap Function.poolSizes
  | _ => []

def Module.codeSize (M : Module) : ℕ :=
  (M.functions.map fun F => bytesIn M.arch F F.instructions).sum

/-- No address is reached a second time. -/
structure NoReuse (M : Module) : Prop where
  names : (M.globals.map Variable.getName).Nodup
  restarts : M.globals.Pairwise fun Gv Gv' => Gv'.getAlignment = 0 → Gv.typeAllocSize = 0
  dataFits : DataFits startOfData.toNat M.globals
  constants : OneConstant M.poolSizes
  constantsFit : endOfData startOfData.toNat M.globals +
    (M.poolSizes.map BitVec.toNat).sum ≤ 2 ^ 32
  codeFits : M.CodeStartAddress.toNat + M.codeSize < 2 ^ 32

/-- The ways to reach an address a second time that make the layout wrong in any case. -/
structure NoOverlap (M : Module) : Prop where
  constants : OneConstant M.poolSizes
  names : M.globals.Pairwise fun Gv Gv' => Gv.getName = Gv'.getName →
    Gv.typeAllocSize = 0 ∨ Gv'.typeAllocSize = 0
  unspecified : (M.globals.map Variable.getName).Nodup → M.globals.Pairwise fun Gv Gv' =>
    Gv.getAlignment = 0 → Gv'.getAlignment = 0 → Gv.typeAllocSize = 0 ∨ Gv'.typeAllocSize = 0

theorem run_cases (h : run M = .ok s) : ∃ s₀,
    M.globals.foldlM placeVariable (.empty, startOfData) =
        .ok (s.Glvar2addr, s₀.RodataAddress) ∧
      s₀.Cpe2addr = .empty ∧ SameCode (.new M.CodeStartAddress) s₀ ∧
      M.functions.foldlM (runOnMachineFunction M.arch) s₀ = .ok s := by
  obtain ⟨s₀, h₀, hrun⟩ := Checked.bind_eq_ok.mp h
  obtain ⟨hplaced, hCpe, hcode⟩ := doInitialization_cases h₀
  exact ⟨s₀, by rw [hplaced, runOnFunctions_glvars hrun], hCpe, hcode, hrun⟩

theorem poolRanges_eq (h : run M = .ok s) : ∃ finish,
    M.globals.foldlM placeVariable (.empty, startOfData) = .ok (s.Glvar2addr, finish) ∧
      poolRanges M s = constantsFrom finish M.poolSizes ∧
      ∀ Entrysize ∈ M.poolSizes, Entrysize % 8 = 0 := by
  obtain ⟨s₀, hplaced, hCpe, -, hrun⟩ := run_cases h
  refine ⟨s₀.RodataAddress, hplaced, ?_⟩
  unfold poolRanges Module.poolSizes
  split
  · next harch =>
    rw [harch] at hrun
    have hpool := pool_runOnFunctions M.functions_nodup
      (fun F _ i => by rw [hCpe, OrderedMap.find?_empty]) hrun
    exact ⟨hpool.1, hpool.2.2⟩
  · exact ⟨rfl, fun _ h => nomatch h⟩

theorem code_disjoint (h : run M = .ok s)
    (hfit : M.CodeStartAddress.toNat + M.codeSize < 2 ^ 32) :
    ((M.functions.flatMap Function.instructions).filterMap (instrRange s) ++
      s.jumpTables).Pairwise Disjoint := by
  obtain ⟨s₀, -, -, hcode, hrun⟩ := run_cases h
  have hstart : LaidTo M.CodeStartAddress.toNat [] M.CodeStartAddress.toNat s₀ := by
    refine ⟨⟨?_, ?_, ?_⟩, congrArg BitVec.toNat hcode.cursor⟩
    · rw [hcode.tables]
      exact placed_nil
    · intro p address hp
      rw [hcode.instructions] at hp
      cases hp
    · exact (congrArg BitVec.toNat hcode.cursor).ge
  have hend := hstart.functions M.instructions_nodup hrun hfit
  exact hend.laid.placed.disjoint

theorem NoReuse.disjointAndAligned (hM : NoReuse M) (h : run M = .ok s) :
    DisjointAndAligned M s := by
  obtain ⟨finish, hplaced, hpool, h8⟩ := poolRanges_eq h
  have hfresh : ∀ Gv ∈ M.globals,
      (OrderedMap.empty : OrderedMap String Word).find? Gv.getName = none := fun _ _ => rfl
  have hal := isLineSize_of_placeVariables hplaced
  have hranges : M.globals.filterMap (rangeOf s.Glvar2addr) = variablesFrom startOfData M.globals :=
    KeyedPlacement.filterMap_eq placeVariable_enters hplaced hM.names hfresh
  have hfinish : finish.toNat = endOfData startOfData.toNat M.globals := by
    rw [← toNat_endOfVariables hal hM.dataFits]
    exact congrArg BitVec.toNat (KeyedPlacement.cursor_eq placeVariable_enters hplaced)
  have hfit := hM.constantsFit
  constructor
  · have hvariables := placed_variables hM.restarts hal hM.dataFits
    have hconstants := placed_constants finish h8 hM.constants
    rw [← hfinish] at hvariables hfit
    rw [hranges, hpool]
    exact (hvariables.append hconstants (Nat.zero_le _) (Nat.le_add_right _ _) hfit).disjoint
  · exact KeyedPlacement.find?_of_mem placeVariable_enters hplaced
      (P := fun Gv address => Gv.getAlignment ≠ 0 → Gv.getAlignment.toNat ∣ address.toNat)
      (fun _ Gv hGv hne => dvd_alignStart (hal Gv hGv hne)) hM.names hfresh
  · exact code_disjoint h hM.codeFits

theorem DisjointAndAligned.noOverlap (hM : DisjointAndAligned M s) (h : run M = .ok s) :
    NoOverlap M := by
  obtain ⟨finish, hplaced, hpool, h8⟩ := poolRanges_eq h
  obtain ⟨hvariables, hconstants, -⟩ := List.pairwise_append.mp hM.data
  constructor
  · rw [hpool] at hconstants
    exact (disjoint_constantsFrom h8).mp hconstants
  · apply List.Pairwise.imp_of_mem _ (List.pairwise_filterMap.mp hvariables)
    intro Gv Gv' hGv _ hdisj hname
    obtain ⟨address, haddress, -⟩ := hM.aligned Gv hGv
    by_contra hne
    obtain ⟨hne, hne'⟩ := not_or.mp hne
    refine @not_disjoint ⟨address, Gv.typeAllocSize⟩ ⟨address, Gv'.typeAllocSize⟩
      hne' (occupies_address hne) (hdisj _ ?_ _ ?_)
    · rw [rangeOf, haddress, Option.map_some]
    · rw [rangeOf, ← hname, haddress, Option.map_some]
  · intro hnames
    have hranges : M.globals.filterMap (rangeOf s.Glvar2addr) =
        variablesFrom startOfData M.globals :=
      KeyedPlacement.filterMap_eq placeVariable_enters hplaced hnames fun _ _ => rfl
    rw [hranges] at hvariables
    exact unspecified_of_disjoint hvariables

/-- The layout is disjoint and aligned if no address is reached a second time, and overlaps if
two constants are not empty, two variables with one name, or two without an alignment. -/
theorem run_layout (h : run M = .ok s) :
    (NoReuse M → DisjointAndAligned M s) ∧ (DisjointAndAligned M s → NoOverlap M) :=
  ⟨fun hM => hM.disjointAndAligned h, fun hM => hM.noOverlap h⟩

/-- A function on RISC-V with some constants of eight bytes, and a variable before them. -/
def withConstants (number : ℕ) : Module where
  arch := .riscv32
  CodeStartAddress := 0x00800000
  globals := [⟨"v", 4, 4, none⟩]
  functions := [⟨0, List.replicate number ⟨8, none⟩, none,
    [[⟨0, false, false, some .instruction⟩, ⟨1, false, false, some .instruction⟩]]⟩]
  functions_nodup := by simp
  instructions_nodup := by simp [Function.instructions]

/-- Two variables without an alignment. -/
def withoutAlignment : Module where
  arch := .arm
  CodeStartAddress := 0x00800000
  globals := [⟨"v", 0, 4, none⟩, ⟨"w", 0, 4, none⟩]
  functions := []
  functions_nodup := by decide
  instructions_nodup := by decide

theorem noReuse_withConstants : NoReuse (withConstants 1) where
  names := by decide
  restarts := by decide
  dataFits := ⟨by decide, trivial⟩
  constants := by decide
  constantsFit := by decide
  codeFits := by decide

theorem run_layout_withConstants : ∃ s, run (withConstants 1) = .ok s ∧
    DisjointAndAligned (withConstants 1) s := by
  have hrun : (run (withConstants 1)).isOk = true := by decide +kernel
  cases h : run (withConstants 1) with
  | error fault =>
    rw [h] at hrun
    cases hrun
  | ok s => exact ⟨s, rfl, (run_layout h).1 noReuse_withConstants⟩

/-- Two constants, and two variables without an alignment, are on top of each other. -/
theorem layout_overlaps :
    (∃ s, run (withConstants 2) = .ok s ∧ ¬ DisjointAndAligned (withConstants 2) s) ∧
      ∃ s, run withoutAlignment = .ok s ∧ ¬ DisjointAndAligned withoutAlignment s := by
  constructor
  · have hrun : (run (withConstants 2)).isOk = true := by decide +kernel
    cases h : run (withConstants 2) with
    | error fault =>
      rw [h] at hrun
      cases hrun
    | ok s =>
      refine ⟨s, rfl, fun hs => ?_⟩
      have hone := (hs.noOverlap h).constants
      revert hone
      decide
  · have hrun : (run withoutAlignment).isOk = true := by decide +kernel
    cases h : run withoutAlignment with
    | error fault =>
      rw [h] at hrun
      cases hrun
    | ok s =>
      refine ⟨s, rfl, fun hs => ?_⟩
      have hone := (hs.noOverlap h).unspecified (by decide)
      revert hone
      decide

end Layout

end StaticAddressProvider

end Llvmta
