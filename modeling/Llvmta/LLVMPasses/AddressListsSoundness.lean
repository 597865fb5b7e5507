import Llvmta.Library.CheckedFold
import Llvmta.Library.StrideCover
import Llvmta.LLVMPasses.TimingAnalysisMain

/-!
# Which lines the address lists cover

The addresses that are listed for an access are the stops of a walk over it. Their
lines are those of all its addresses only for accesses within one line, and for arrays
whose last stop is in the last line. What an access leaves out is covered nevertheless
if it is listed for another access to a function of the task.
-/

namespace Llvmta

open Checked StrideCover

section Access

variable {P : StaticAddresses} {Dlinesize L2linesize lower upper x : Word} {addr : DataAddress}
  {list : List Word}

def DataAddress.isArray : DataAddress → Bool
  | .interval _ _ => false
  | .array _ => true

/-- The addresses of an access. -/
def Inside (P : StaticAddresses) (addr : DataAddress) (a : Word) : Prop :=
  ∃ lower upper, addr.getAsInterval P = .ok (lower, upper) ∧ lower ≤ a ∧ a ≤ upper

/-- The addresses at which the walk over an access stops. -/
def Stops (P : StaticAddresses) (Dlinesize : Word) (addr : DataAddress) (x : Word) : Prop :=
  ∃ lower upper, addr.getAsInterval P = .ok (lower, upper) ∧
    if lower.toNat / Dlinesize.toNat = upper.toNat / Dlinesize.toNat then x = lower
    else addr.isArray = true ∧
      ∃ k, x.toNat = lower.toNat + k * Dlinesize.toNat ∧ x.toNat < upper.toNat

/-- The walk stops in every line of the access: it is within one line, or it is an array,
its last stop is in its last line and the strides are not longer than the lines. -/
def EveryLineListed (P : StaticAddresses) (Dlinesize L2linesize : Word) (addr : DataAddress) :
    Prop :=
  ∀ lower upper, addr.getAsInterval P = .ok (lower, upper) → lower ≤ upper →
    if lower.toNat / Dlinesize.toNat = upper.toNat / Dlinesize.toNat then
      lower.toNat / L2linesize.toNat = upper.toNat / L2linesize.toNat
    else addr.isArray = true ∧ Dlinesize.toNat ≤ L2linesize.toNat ∧
      lastStop Dlinesize.toNat lower.toNat upper.toNat / L2linesize.toNat =
        upper.toNat / L2linesize.toNat

/-- If the stops wrap around before the end, the walk goes on for ever. -/
theorem arrayAddresses_diverges (h : IsLineSize Dlinesize) {fuel : ℕ} {temp : Word}
    (hbelow : ∀ y : Word, y.toNat % Dlinesize.toNat = temp.toNat % Dlinesize.toNat → y < upper) :
    arrayAddresses Dlinesize upper fuel temp ≠ .ok list := by
  induction fuel generalizing temp list with
  | zero => exact fun hok => nomatch hok
  | succ fuel ih =>
    intro hok
    rw [arrayAddresses, if_pos (hbelow temp rfl)] at hok
    obtain ⟨rest, hrest, _⟩ := bind_eq_ok.mp hok
    refine ih (fun y hy => hbelow y ?_) hrest
    obtain ⟨k, hk, hsize⟩ := h.toNat
    rw [hy, BitVec.toNat_add, hsize,
      Nat.mod_mod_of_dvd _ (pow_dvd_pow 2 hk.le), Nat.add_mod_right]

/-- The stops of the walk through an array. -/
theorem mem_arrayAddresses (h : IsLineSize Dlinesize) {fuel : ℕ} {temp : Word}
    (hok : arrayAddresses Dlinesize upper fuel temp = .ok list) :
    x ∈ list ↔ ∃ k, x.toNat = temp.toNat + k * Dlinesize.toNat ∧ x.toNat < upper.toNat := by
  induction fuel generalizing temp list with
  | zero => cases hok
  | succ fuel ih =>
    rw [arrayAddresses] at hok
    split_ifs at hok with hlt
    · obtain ⟨rest, hrest, heq⟩ := bind_eq_ok.mp hok
      have hnowrap : temp.toNat + Dlinesize.toNat < 2 ^ 32 := by
        by_contra hwrap
        obtain ⟨k, hk, hsize⟩ := h.toNat
        refine arrayAddresses_diverges h (fun y hy => ?_) hrest
        rw [BitVec.toNat_add, hsize, Nat.mod_mod_of_dvd _ (pow_dvd_pow 2 hk.le),
          Nat.add_mod_right] at hy
        -- `temp` is the greatest number with its remainder
        have hy32 := y.isLt
        have hydiv := Nat.div_add_mod y.toNat (2 ^ k)
        have htdiv := Nat.div_add_mod temp.toNat (2 ^ k)
        have hle : y.toNat / 2 ^ k ≤ temp.toNat / 2 ^ k := by
          rw [hsize] at hwrap
          by_contra hgt
          have := Nat.mul_le_mul_left (2 ^ k) (not_le.mp hgt)
          rw [Nat.mul_succ] at this
          omega
        have := Nat.mul_le_mul_left (2 ^ k) hle
        have hltNat := BitVec.lt_def.mp hlt
        exact BitVec.lt_def.mpr (by omega)
      cases heq
      rw [List.mem_cons, ih hrest, BitVec.toNat_add, Nat.mod_eq_of_lt hnowrap]
      constructor
      · rintro (rfl | ⟨k, hk, hend⟩)
        · exact ⟨0, by omega, hlt⟩
        · exact ⟨k + 1, by rw [hk]; ring, hend⟩
      · rintro ⟨k, hk, hend⟩
        cases k with
        | zero => exact .inl (BitVec.eq_of_toNat_eq (by omega))
        | succ k => exact .inr ⟨k, by rw [hk]; ring, hend⟩
    · cases hok
      constructor
      · intro hmem
        cases hmem
      · rintro ⟨k, hk, hend⟩
        exact absurd (BitVec.lt_def.mpr (by omega)) hlt

theorem DataAddress.getAsInterval_of_precise {a : Word} (h : addr.precise? = some a) :
    addr.getAsInterval P = .ok (a, a) := by
  cases addr with
  | array => cases h
  | interval lower upper =>
    dsimp only [DataAddress.precise?] at h
    split_ifs at h with heq
    cases h
    rw [heq]
    rfl

/-- The addresses that are listed for an access are the stops of the walk. -/
theorem mem_accessAddresses (h : IsLineSize Dlinesize)
    (hok : accessAddresses P Dlinesize addr = .ok list) : x ∈ list ↔ Stops P Dlinesize addr x := by
  obtain ⟨⟨lower, upper⟩, hitv, hok⟩ := bind_eq_ok.mp hok
  have hstops : Stops P Dlinesize addr x ↔
      if lower.toNat / Dlinesize.toNat = upper.toNat / Dlinesize.toNat then x = lower
      else addr.isArray = true ∧
        ∃ k, x.toNat = lower.toNat + k * Dlinesize.toNat ∧ x.toNat < upper.toNat := by
    constructor
    · rintro ⟨lower', upper', hitv', hx⟩
      rw [hitv] at hitv'
      cases hitv'
      exact hx
    · exact fun hx => ⟨lower, upper, hitv, hx⟩
  rw [hstops]
  dsimp only at hok
  by_cases hsame : lower.toNat / Dlinesize.toNat = upper.toNat / Dlinesize.toNat
  · rw [if_pos hsame]
    rw [if_pos (by rw [Bool.or_eq_true]; exact .inr (beq_iff_eq.mpr ((alignTo_eq_iff h).mpr hsame)))]
      at hok
    cases hok
    exact List.mem_singleton
  · have hprecise : addr.precise? = none := by
      cases hp : addr.precise? with
      | none => rfl
      | some a =>
        rw [DataAddress.getAsInterval_of_precise hp] at hitv
        cases hitv
        exact absurd rfl hsame
    rw [if_neg hsame]
    rw [if_neg (by
      rw [hprecise, Option.isSome_none, Bool.false_or, beq_iff_eq, alignTo_eq_iff h]
      exact hsame)] at hok
    cases addr with
    | interval =>
      cases hok
      exact iff_of_false List.not_mem_nil fun hx => nomatch hx.1
    | array =>
      rw [mem_arrayAddresses h hok]
      exact (and_iff_right rfl).symm

/-- When the stops of the walk are in all lines of the access. -/
theorem everyLineListed_iff (hD : IsLineSize Dlinesize) (hL : IsLineSize L2linesize) :
    EveryLineListed P Dlinesize L2linesize addr ↔ ∀ a, Inside P addr a →
      ∃ x, Stops P Dlinesize addr x ∧ alignTo L2linesize x = alignTo L2linesize a := by
  obtain ⟨d, _, hd⟩ := hD.toNat
  obtain ⟨l, _, hl⟩ := hL.toNat
  simp only [alignTo_eq_iff hL]
  constructor
  · rintro h a ⟨lower, upper, hitv, hlower, hupper⟩
    have hlower' := BitVec.le_def.mp hlower
    have hupper' := BitVec.le_def.mp hupper
    have hlisted := h lower upper hitv (hlower.trans hupper)
    by_cases hsame : lower.toNat / Dlinesize.toNat = upper.toNat / Dlinesize.toNat
    · rw [if_pos hsame] at hlisted
      refine ⟨lower, ⟨lower, upper, hitv, by rw [if_pos hsame]⟩, ?_⟩
      have hle := Nat.div_le_div_right (c := L2linesize.toNat) hlower'
      have hle' := Nat.div_le_div_right (c := L2linesize.toNat) hupper'
      omega
    · rw [if_neg hsame] at hlisted
      obtain ⟨harray, hcovers⟩ := hlisted
      rw [hd, hl] at hcovers
      rw [hd] at hsame
      obtain ⟨k, hlt, hk⟩ :=
        (covers_iff (hlower'.trans hupper') hsame).mpr hcovers a.toNat hlower' hupper'
      have hstop : (BitVec.ofNat 32 (lower.toNat + k * 2 ^ d)).toNat = lower.toNat + k * 2 ^ d := by
        rw [BitVec.toNat_ofNat, Nat.mod_eq_of_lt (hlt.trans upper.isLt)]
      refine ⟨BitVec.ofNat 32 (lower.toNat + k * 2 ^ d), ⟨lower, upper, hitv, ?_⟩, ?_⟩
      · rw [hd, if_neg hsame, hstop]
        exact ⟨harray, k, rfl, hlt⟩
      · rw [hstop, hl, hk]
  · intro h lower upper hitv hle
    have hstops {x : Word} (hx : Stops P Dlinesize addr x) :
        if lower.toNat / Dlinesize.toNat = upper.toNat / Dlinesize.toNat then x = lower
        else addr.isArray = true ∧
          ∃ k, x.toNat = lower.toNat + k * Dlinesize.toNat ∧ x.toNat < upper.toNat := by
      obtain ⟨lower', upper', hitv', hx⟩ := hx
      rw [hitv] at hitv'
      cases hitv'
      exact hx
    by_cases hsame : lower.toNat / Dlinesize.toNat = upper.toNat / Dlinesize.toNat
    · rw [if_pos hsame]
      obtain ⟨x, hx, hline⟩ := h upper ⟨lower, upper, hitv, hle, le_rfl⟩
      have hx' := hstops hx
      rw [if_pos hsame] at hx'
      rw [← hline, hx']
    · rw [if_neg hsame]
      simp only [if_neg hsame] at hstops
      obtain ⟨x, hx, _⟩ := h lower ⟨lower, upper, hitv, le_rfl, hle⟩
      refine ⟨(hstops hx).1, ?_⟩
      rw [hd] at hsame hstops ⊢
      rw [hl] at h ⊢
      refine (covers_iff (BitVec.le_def.mp hle) hsame).mp fun a hlower hupper => ?_
      have ha : (BitVec.ofNat 32 a).toNat = a := by
        rw [BitVec.toNat_ofNat, Nat.mod_eq_of_lt (hupper.trans_lt upper.isLt)]
      obtain ⟨x, hx, hline⟩ := h (BitVec.ofNat 32 a) ⟨lower, upper, hitv,
        BitVec.le_def.mpr (ha.symm ▸ hlower), BitVec.le_def.mpr (ha.symm ▸ hupper)⟩
      obtain ⟨_, k, hk, hend⟩ := hstops hx
      rw [ha, hk] at hline
      exact ⟨k, hk ▸ hend, hline⟩

end Access

section Collection

variable {α β : Type} {f : α → Except Fault (List β)} {l : List α} {r : List β} {b : β}

theorem exists_of_collectAll (h : collectAll f l = .ok r) {a : α} (ha : a ∈ l) :
    ∃ x, f a = .ok x := by
  induction l generalizing r with
  | nil => cases ha
  | cons a' l ih =>
    obtain ⟨x, hx, h⟩ := bind_eq_ok.mp h
    obtain ⟨rest, hrest, _⟩ := bind_eq_ok.mp h
    rcases List.mem_cons.mp ha with rfl | hmem
    · exact ⟨x, hx⟩
    · exact ih hrest hmem

theorem mem_collectAll (h : collectAll f l = .ok r) :
    b ∈ r ↔ ∃ a ∈ l, ∃ x, f a = .ok x ∧ b ∈ x := by
  induction l generalizing r with
  | nil =>
    cases h
    simp
  | cons a l ih =>
    obtain ⟨x, hx, h⟩ := bind_eq_ok.mp h
    obtain ⟨rest, hrest, heq⟩ := bind_eq_ok.mp h
    cases heq
    rw [List.mem_append, ih hrest]
    constructor
    · rintro (hmem | ⟨a', ha', x', hx', hmem⟩)
      · exact ⟨a, List.mem_cons_self, x, hx, hmem⟩
      · exact ⟨a', List.mem_cons_of_mem a ha', x', hx', hmem⟩
    · rintro ⟨a', ha', x', hx', hmem⟩
      rcases List.mem_cons.mp ha' with rfl | htail
      · rw [hx] at hx'
        cases hx'
        exact .inl hmem
      · exact .inr ⟨a', htail, x', hx', hmem⟩

end Collection

section Lists

variable {Instr : Type} {main : TimingAnalysisMain Instr} {entry funcName : String}
  {lists lists' : AddressLists} {currMI : Instr} {x : Word}

/-- An access of an instruction in some context of the task. -/
def DataAccess (main : TimingAnalysisMain Instr) (entry : String) (currMI : Instr)
    (addr : DataAddress) : Prop :=
  (main.program.mayLoad currMI || main.program.mayStore currMI) = true ∧
    ∃ ctx ∈ (main.constValAna entry).getAddressContexts currMI, ∃ num,
      main.program.getNumOfDataAccesses currMI = .ok num ∧ ∃ o < num,
        (main.constValAna entry).getDataAccessAddress currMI ctx o = .ok addr

/-- An address that is listed for an access, for the instruction set that lists are
collected for. -/
def Listed (main : TimingAnalysisMain Instr) (entry : String) (currMI : Instr) (x : Word) : Prop :=
  ∃ addr, DataAccess main entry currMI addr ∧
    Stops main.program.staticAddresses main.Dlinesize addr x

theorem mem_getvalueaddr (hD : IsLineSize main.Dlinesize) {list : List Word}
    (h : getvalueaddr main.program main.Dlinesize (main.constValAna entry) currMI = .ok list) :
    x ∈ list ↔ Listed main entry currMI x := by
  unfold getvalueaddr at h
  split_ifs at h with hmemory
  · rw [mem_collectAll h]
    constructor
    · rintro ⟨ctx, hctx, l, hl, hx⟩
      obtain ⟨num, hnum, hl⟩ := bind_eq_ok.mp hl
      obtain ⟨o, ho, l', hl', hx⟩ := (mem_collectAll hl).mp hx
      obtain ⟨addr, haddr, hlist⟩ := bind_eq_ok.mp hl'
      exact ⟨addr, ⟨hmemory, ctx, hctx, num, hnum, o, List.mem_range.mp ho, haddr⟩,
        (mem_accessAddresses hD hlist).mp hx⟩
    · rintro ⟨addr, ⟨_, ctx, hctx, num, hnum, o, ho, haddr⟩, hx⟩
      obtain ⟨l, hl⟩ := exists_of_collectAll h hctx
      refine ⟨ctx, hctx, l, hl, ?_⟩
      obtain ⟨num', hnum', hl⟩ := bind_eq_ok.mp hl
      rw [hnum] at hnum'
      cases hnum'
      obtain ⟨l', hl'⟩ := exists_of_collectAll hl (List.mem_range.mpr ho)
      refine (mem_collectAll hl).mpr ⟨o, List.mem_range.mpr ho, l', hl', ?_⟩
      obtain ⟨addr', haddr', hlist⟩ := bind_eq_ok.mp hl'
      rw [haddr] at haddr'
      cases haddr'
      exact (mem_accessAddresses hD hlist).mpr hx
  · cases h
    exact iff_of_false List.not_mem_nil fun ⟨_, haccess, _⟩ => hmemory haccess.1

@[simp] theorem mem_emplaceAddress {f : String} {line : Word} :
    x ∈ (lists.emplaceAddress funcName line).addrlist f ↔
      x ∈ lists.addrlist f ∨ f = funcName ∧ x = line := by
  unfold AddressLists.emplaceAddress
  dsimp only
  split_ifs with hf
  · simp [hf, or_comm]
  · simp [hf]

@[simp] theorem emplaceAddress_functiontofs {line : Word} :
    (lists.emplaceAddress funcName line).functiontofs = lists.functiontofs := rfl

@[simp] theorem emplaceFunction_addrlist :
    (lists.emplaceFunction entry funcName).addrlist = lists.addrlist := rfl

@[simp] theorem mem_emplaceFunction {task f : String} :
    f ∈ (lists.emplaceFunction entry funcName).functiontofs task ↔
      f ∈ lists.functiontofs task ∨ task = entry ∧ f = funcName := by
  unfold AddressLists.emplaceFunction
  dsimp only
  split_ifs with htask
  · simp [htask, or_comm]
  · simp [htask]

theorem foldl_emplaceAddress {list : List Word} (line : Word → Word) {f : String} :
    (x ∈ (list.foldl (fun lists addr => lists.emplaceAddress funcName (line addr))
        lists).addrlist f ↔
      x ∈ lists.addrlist f ∨ f = funcName ∧ ∃ addr ∈ list, line addr = x) ∧
    (list.foldl (fun lists addr => lists.emplaceAddress funcName (line addr))
      lists).functiontofs = lists.functiontofs := by
  induction list generalizing lists with
  | nil => simp
  | cons addr list ih =>
    rw [List.foldl_cons, ih.1, ih.2, mem_emplaceAddress]
    refine ⟨?_, rfl⟩
    simp only [List.mem_cons, exists_eq_or_imp, and_or_left, or_assoc, eq_comm (a := x)]

/-- The lines that an instruction of a task contributes. -/
def Contributes (main : TimingAnalysisMain Instr) (entry : String) (currMI : Instr) (x : Word) :
    Prop :=
  (∃ addr, main.program.ins2addr currMI = some addr ∧ main.line addr = x) ∨
    ∃ addr, Listed main entry currMI addr ∧ main.line addr = x

theorem collectFetch_spec (f : String) :
    (x ∈ (main.collectFetch funcName lists currMI).addrlist f ↔ x ∈ lists.addrlist f ∨
      f = funcName ∧ ∃ addr, main.program.ins2addr currMI = some addr ∧ main.line addr = x) ∧
    (main.collectFetch funcName lists currMI).functiontofs = lists.functiontofs := by
  unfold TimingAnalysisMain.collectFetch
  cases main.program.ins2addr currMI with
  | none => simp
  | some addr => simp [eq_comm]

theorem collectInstruction_spec (hD : IsLineSize main.Dlinesize)
    (h : main.collectInstruction entry funcName lists currMI = .ok lists') (f : String) :
    (x ∈ lists'.addrlist f ↔
      x ∈ lists.addrlist f ∨ f = funcName ∧ Contributes main entry currMI x) ∧
    lists'.functiontofs = lists.functiontofs := by
  obtain ⟨hmem, hfunctions⟩ := @collectFetch_spec _ main funcName lists currMI x f
  unfold TimingAnalysisMain.collectInstruction at h
  dsimp only at h
  split_ifs at h with hmemory
  · obtain ⟨list, hlist, h⟩ := bind_eq_ok.mp h
    cases h
    obtain ⟨hdata, hsame⟩ := @foldl_emplaceAddress funcName
      (main.collectFetch funcName lists currMI) x list main.line f
    refine ⟨?_, hsame.trans hfunctions⟩
    rw [hdata, hmem, or_assoc, ← and_or_left]
    simp only [mem_getvalueaddr hD hlist]
    rfl
  · cases h
    refine ⟨?_, hfunctions⟩
    rw [hmem]
    have hnone : ¬∃ addr, Listed main entry currMI addr ∧ main.line addr = x := by
      rintro ⟨_, ⟨_, haccess, _⟩, _⟩
      exact hmemory haccess.1
    simp [Contributes, hnone]

/-- The functions that the entry of a task may call. -/
def InTask (main : TimingAnalysisMain Instr) (entry : String) (F : MachineFunction Instr) : Prop :=
  F ∈ main.program.machineFunctions ∧ Worklist.Reaches main.program.callees entry F.name

theorem collectFunction_spec (hD : IsLineSize main.Dlinesize) {F : MachineFunction Instr}
    (h : main.collectFunction entry lists F = .ok lists') (f : String) :
    (x ∈ lists'.addrlist f ↔ x ∈ lists.addrlist f ∨
      main.program.reachableFromEntryPoint entry F.name = true ∧ f = F.name ∧
        ∃ MI ∈ F.instructions, Contributes main entry MI x) ∧
    ∀ task, f ∈ lists'.functiontofs task ↔ f ∈ lists.functiontofs task ∨
      main.program.reachableFromEntryPoint entry F.name = true ∧ task = entry ∧ f = F.name := by
  unfold TimingAnalysisMain.collectFunction at h
  cases hreach : main.program.reachableFromEntryPoint entry F.name with
  | false =>
    rw [hreach] at h
    cases h
    simp
  | true =>
    rw [hreach, if_neg (by decide)] at h
    constructor
    · rw [foldlM_adds (H := fun lists => x ∈ lists.addrlist f)
        (fun _ _ _ hstep => (collectInstruction_spec hD hstep f).1) h]
      simp only [emplaceFunction_addrlist, true_and]
      aesop
    · intro task
      have hsame (s : AddressLists) (MI : Instr) (s' : AddressLists)
          (hstep : main.collectInstruction entry F.name s MI = .ok s') :
          f ∈ s'.functiontofs task ↔ f ∈ s.functiontofs task ∨ False := by
        rw [(@collectInstruction_spec _ _ _ _ _ _ _ 0 hD hstep f).2, or_false]
      rw [foldlM_adds (H := fun lists => f ∈ lists.functiontofs task) (A := fun _ => False) hsame h]
      simp

/-- The lines that are listed for a function, for any of the tasks. -/
def ListedIn (main : TimingAnalysisMain Instr) (f : String) (x : Word) : Prop :=
  ∃ entry ∈ main.entries, ∃ F, InTask main entry F ∧ f = F.name ∧
    ∃ MI ∈ F.instructions, Contributes main entry MI x

theorem collectTask_spec (hD : IsLineSize main.Dlinesize) (harch : main.arch = .arm)
    (h : main.collectTask lists entry = .ok lists') (f : String) :
    (x ∈ lists'.addrlist f ↔ x ∈ lists.addrlist f ∨ ∃ F, InTask main entry F ∧ f = F.name ∧
      ∃ MI ∈ F.instructions, Contributes main entry MI x) ∧
    ∀ task, f ∈ lists'.functiontofs task ↔ f ∈ lists.functiontofs task ∨
      task = entry ∧ ∃ F, InTask main entry F ∧ f = F.name := by
  obtain ⟨_, hentry, h⟩ := bind_eq_ok.mp h
  have hreach := MachineProgram.reachableFromEntryPoint_iff (of_assertThat hentry)
  rw [harch] at h
  dsimp only at h
  constructor
  · rw [foldlM_adds (H := fun lists => x ∈ lists.addrlist f)
      (fun _ _ _ hstep => (collectFunction_spec hD hstep f).1) h]
    simp only [InTask, hreach, and_assoc]
  · intro task
    rw [foldlM_adds (H := fun lists => f ∈ lists.functiontofs task)
      (fun _ _ _ hstep => (@collectFunction_spec _ _ _ _ _ 0 hD _ hstep f).2 task) h]
    simp only [InTask, hreach]
    aesop

/-- For the one instruction set the lists are exactly what the instructions contribute. -/
theorem doFinalization_spec (hD : IsLineSize main.Dlinesize) (harch : main.arch = .arm)
    (h : main.doFinalization = .ok lists) (f : String) :
    (x ∈ lists.addrlist f ↔ ListedIn main f x) ∧
    ∀ task, f ∈ lists.functiontofs task ↔
      task ∈ main.entries ∧ ∃ F, InTask main task F ∧ f = F.name := by
  constructor
  · rw [foldlM_adds (H := fun lists => x ∈ lists.addrlist f)
      (fun _ _ _ hstep => (collectTask_spec hD harch hstep f).1) h]
    simp [AddressLists.empty, ListedIn]
  · intro task
    rw [foldlM_adds (H := fun lists => f ∈ lists.functiontofs task)
      (fun _ _ _ hstep => (@collectTask_spec _ _ _ _ _ 0 hD harch hstep f).2 task) h]
    simp only [AddressLists.empty, Finset.notMem_empty, false_or]
    constructor
    · rintro ⟨entry, hentry, rfl, hF⟩
      exact ⟨hentry, hF⟩
    · rintro ⟨hentry, hF⟩
      exact ⟨task, hentry, rfl, hF⟩

/-- For the other one nothing is listed. -/
theorem doFinalization_of_ne_arm (harch : main.arch ≠ .arm)
    (h : main.doFinalization = .ok lists) : lists = .empty := by
  have hsame : ∀ (entries : List String) (lists lists' : AddressLists),
      entries.foldlM main.collectTask lists = .ok lists' → lists' = lists := by
    intro entries
    induction entries with
    | nil =>
      intro lists lists' h
      cases h
      rfl
    | cons entry entries ih =>
      intro lists lists' h
      rw [List.foldlM_cons] at h
      obtain ⟨s, hs, h⟩ := bind_eq_ok.mp h
      obtain ⟨_, _, hs⟩ := bind_eq_ok.mp hs
      cases hisa : main.arch with
      | arm => exact absurd hisa harch
      | riscv32 =>
        rw [hisa] at hs
        cases hs
        exact ih lists lists' h
      | other =>
        rw [hisa] at hs
        cases hs
  exact hsame _ _ _ h

/-- A line is in the lists of a task. -/
def CoveredBy (lists : AddressLists) (entry : String) (line : Word) : Prop :=
  ∃ f ∈ lists.functiontofs entry, line ∈ lists.addrlist f

instance (lists : AddressLists) (entry : String) (line : Word) :
    Decidable (CoveredBy lists entry line) :=
  inferInstanceAs (Decidable (∃ f ∈ lists.functiontofs entry, line ∈ lists.addrlist f))

/-- The lists of each task cover the lines of its instructions and of all addresses of its
data accesses. -/
structure ListsComplete (main : TimingAnalysisMain Instr) (lists : AddressLists) : Prop where
  instructions : ∀ entry ∈ main.entries, ∀ F, InTask main entry F → ∀ MI ∈ F.instructions,
    ∀ addr, main.program.ins2addr MI = some addr → CoveredBy lists entry (main.line addr)
  data : ∀ entry ∈ main.entries, ∀ F, InTask main entry F → ∀ MI ∈ F.instructions,
    ∀ addr, DataAccess main entry MI addr → ∀ a, Inside main.program.staticAddresses addr a →
      CoveredBy lists entry (main.line a)

/-- A line is contributed to a function of the task. -/
def ContributedTo (main : TimingAnalysisMain Instr) (entry : String) (line : Word) : Prop :=
  ∃ F, InTask main entry F ∧ ListedIn main F.name line

/-- When the lists are complete: for the one instruction set if the walk over an access stops
in every line, or other instructions make up for that; for the other one if the tasks
access nothing. -/
def ListsKept (main : TimingAnalysisMain Instr) : Prop :=
  main.arch = .arm ∧
    (∀ entry ∈ main.entries, ∀ F, InTask main entry F → ∀ MI ∈ F.instructions,
      ∀ addr, DataAccess main entry MI addr →
        EveryLineListed main.program.staticAddresses main.Dlinesize main.L2linesize addr ∨
        ∀ a, Inside main.program.staticAddresses addr a →
          ContributedTo main entry (main.line a)) ∨
  main.arch ≠ .arm ∧
    ∀ entry ∈ main.entries, ∀ F, InTask main entry F → ∀ MI ∈ F.instructions,
      main.program.ins2addr MI = none ∧ ∀ addr, DataAccess main entry MI addr →
        ∀ a, ¬Inside main.program.staticAddresses addr a

theorem coveredBy_iff (hD : IsLineSize main.Dlinesize) (harch : main.arch = .arm)
    (h : main.doFinalization = .ok lists) (hentry : entry ∈ main.entries) :
    CoveredBy lists entry x ↔ ContributedTo main entry x := by
  have hspec := @doFinalization_spec _ main lists x hD harch h
  constructor
  · rintro ⟨f, hf, hx⟩
    obtain ⟨_, F, hF, rfl⟩ := ((hspec f).2 entry).mp hf
    exact ⟨F, hF, (hspec F.name).1.mp hx⟩
  · rintro ⟨F, hF, hx⟩
    exact ⟨F.name, ((hspec F.name).2 entry).mpr ⟨hentry, F, hF, rfl⟩, (hspec F.name).1.mpr hx⟩

theorem contributedTo_of_contributes (hentry : entry ∈ main.entries) {F : MachineFunction Instr}
    (hF : InTask main entry F) (hMI : currMI ∈ F.instructions)
    (h : Contributes main entry currMI x) : ContributedTo main entry x :=
  ⟨F, hF, entry, hentry, F, hF, rfl, currMI, hMI, h⟩

/-- A task with one instruction, at address 4096, that loads. -/
def loading (addr : DataAddress) (size : Word) : TimingAnalysisMain Unit where
  arch := .arm
  program :=
    { machineFunctions := [⟨"main", [[()]]⟩]
      mayLoad := fun _ => true
      mayStore := fun _ => false
      getNumOfDataAccesses := fun _ => .ok 1
      callTargets := fun _ => []
      ins2addr := fun _ => some 4096
      staticAddresses := ⟨true, fun _ => some 256, fun _ => size, fun _ _ => none, fun _ => none,
        fun _ => none⟩ }
  constValAna := fun _ => ⟨fun _ => [0], fun _ _ _ => .ok addr⟩
  taskMap := [(0, ["main"])]
  Dlinesize := 16
  L2linesize := 16

theorem isLineSize_sixteen : IsLineSize 16 := ⟨4, by decide, rfl⟩

end Lists

end Llvmta
