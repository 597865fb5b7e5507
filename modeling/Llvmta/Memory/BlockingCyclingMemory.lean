import Llvmta.Memory.SimpleSDRAMCyclingMemory

/-!
# A memory behind a shared bus

The wrapper hands an access to its memory at once, and lets it be blocked by other
bus accesses afterwards: as soon as the memory is idle, every cycle may be the last
blocked one. Fast-forwarding leaves out the cycles of the memory as well as all
possible blocked cycles.
-/

namespace Llvmta

open Checked

/-- The options that concern the blocking. -/
structure BlockingOptions where
  maxBlockingPerAccess : ℕ
  maxBlockingPerAccess_lt : maxBlockingPerAccess < 2 ^ 32
  /-- blocking is analysed compositionally -/
  compositional : Bool
  stallOnBlocking : Bool
  deriving Repr

structure BlockingCyclingMemory (μ : Type) where
  memory : μ
  delayedAccess : Option (AbstractAddress × AccessType)
  /-- blocked cycles of the current access, a lower bound -/
  addedBlocking : ℕ
  fastForwardedBlocking : IntervalCounter
  deriving DecidableEq, Repr

namespace BlockingCyclingMemory

variable {μ : Type} (opts : BlockingOptions) (M : AbstractCyclingMemory μ)

def new : BlockingCyclingMemory μ := ⟨M.new, none, 0, .ofValue 0⟩

def isBusy (b : BlockingCyclingMemory μ) : Bool := b.delayedAccess.isSome || M.isBusy b.memory

def incrementAddedBlocking (b : BlockingCyclingMemory μ) : BlockingCyclingMemory μ :=
  { b with addedBlocking := toUnsigned (b.addedBlocking + 1) }

/-- The cases that a delayed access stays blocked or is not blocked any longer. -/
def performSplit (b : BlockingCyclingMemory μ) : Except Fault (List (BlockingCyclingMemory μ)) := do
  assertThat (!M.isBusy b.memory) "Cannot handle blocking if wrapped memory us busy"
  if b.delayedAccess.isSome then
    .ok ((if !opts.compositional && b.addedBlocking < opts.maxBlockingPerAccess then
        [incrementAddedBlocking b] else []) ++
      [{ b with delayedAccess := none, addedBlocking := 0 }])
  else .ok [b]

/-- What follows a cycle of the wrapped memory. -/
def afterCycle (b : BlockingCyclingMemory μ) (cwm : μ) :
    Except Fault (List (BlockingCyclingMemory μ)) :=
  if M.isBusy cwm then .ok [{ b with memory := cwm }]
  else performSplit opts M { b with memory := cwm }

def cycle (b : BlockingCyclingMemory μ) : Except Fault (List (BlockingCyclingMemory μ)) := do
  assertThat (b.addedBlocking ≤ if b.delayedAccess.isSome then opts.maxBlockingPerAccess else 0)
    "The number of blocked cycles must at most be as high at this program point."
  let cwms ← M.cycle b.memory
  forEach (afterCycle opts M b) cwms

def shouldPipelineStall (b : BlockingCyclingMemory μ) : Bool :=
  (opts.stallOnBlocking && b.delayedAccess.isSome && !M.isBusy b.memory) ||
    M.shouldPipelineStall b.memory

def isJoinable (b b' : BlockingCyclingMemory μ) : Bool :=
  b.addedBlocking == b'.addedBlocking && b.delayedAccess == b'.delayedAccess &&
    M.isJoinable b.memory b'.memory

def join (b b' : BlockingCyclingMemory μ) : Except Fault (BlockingCyclingMemory μ) := do
  assertThat (isJoinable M b b') "Cannot join non-joinable generic cycling memories"
  let memory ← M.join b.memory b'.memory
  .ok { b with
    memory, fastForwardedBlocking := b.fastForwardedBlocking.join b'.fastForwardedBlocking }

def resetLocalMetrics (b : BlockingCyclingMemory μ) : BlockingCyclingMemory μ :=
  { b with fastForwardedBlocking := .ofValue 0, memory := M.resetLocalMetrics b.memory }

def announceAccess (b : BlockingCyclingMemory μ) (addr : AbstractAddress) (t : AccessType)
    (numWords : ℕ) : Except Fault (List (BlockingCyclingMemory μ)) := do
  assertThat (!isBusy M b) "Don't announce an access to a busy memory!"
  let ms ← M.announceAccess b.memory addr t numWords
  forEach (fun wS => do
    assertThat (M.isBusy wS) "There cannot be a memory that serves an access request in 0 time!"
    .ok [{ b with memory := wS, delayedAccess := some (addr, t) }]) ms

def fastForward (b : BlockingCyclingMemory μ) :
    Except Fault (List (BlockingCyclingMemory μ)) := do
  assertThat (isBusy M b) "One should only fast-forward busy memories!"
  assertThat b.delayedAccess.isSome "Unable to fast forward, no access"
  if M.isBusy b.memory then
    let ms ← M.fastForward b.memory
    forEach (fun forwardedInnerMem =>
      let copy := { b with memory := forwardedInnerMem }
      if opts.compositional then .ok [copy] else do
        assertThat (copy.addedBlocking == 0)
          "Not started with blocking phase, but have blocked cycles already"
        .ok [{ copy with
          addedBlocking := opts.maxBlockingPerAccess
          fastForwardedBlocking :=
            copy.fastForwardedBlocking.add ⟨0, opts.maxBlockingPerAccess⟩ }]) ms
  else
    assertThat (!opts.compositional) "Blocking forwarding although compositional"
    .ok [{ b with
      addedBlocking := opts.maxBlockingPerAccess
      fastForwardedBlocking :=
        b.fastForwardedBlocking.add ⟨0, opts.maxBlockingPerAccess - b.addedBlocking⟩ }]

/-- The wrapped memory as a cycling memory. -/
def blocking : AbstractCyclingMemory (BlockingCyclingMemory μ) where
  new := new M
  isBusy := isBusy M
  cycle := cycle opts M
  announceAccess := announceAccess M
  fastForward := fastForward opts M
  shouldPipelineStall := shouldPipelineStall opts M
  isJoinable := isJoinable M
  join := join M
  resetLocalMetrics := resetLocalMetrics M

/-- The cycles that were left out: those of the memory and the blocked ones. -/
def forwarded (forwardedMemory : μ → Set ℕ) (b : BlockingCyclingMemory μ) : Set ℕ :=
  {t | ∃ v ∈ forwardedMemory b.memory, ∃ w ∈ b.fastForwardedBlocking.values, t = v + w}

/-- Neither counter overflows in a fast-forward. -/
def NoOverflow (noOverflow : μ → Prop) (b : BlockingCyclingMemory μ) : Prop :=
  (M.isBusy b.memory = true → noOverflow b.memory) ∧
    b.fastForwardedBlocking.ub +
      (if opts.compositional then 0 else opts.maxBlockingPerAccess - b.addedBlocking) < 2 ^ 32

/-- What the wrapper needs of its memory: an idle one stays idle, and a fast-forward
leads to the last cycle of the access and changes no completion time. -/
structure Forwards (forwardedMemory : μ → Set ℕ) (noOverflow : μ → Prop) : Prop where
  newIdle : M.isBusy M.new = false
  cycleIdle : ∀ m, M.Reachable noOverflow m → M.isBusy m = false → (∃ m', Leads M.cycle m m') ∧
    ∀ m', Leads M.cycle m m' → M.isBusy m' = false ∧ forwardedMemory m' = forwardedMemory m
  staysBusy : ∀ m m', Leads M.fastForward m m' → M.isBusy m' = true
  completes : ∀ m m' m'', M.Reachable noOverflow m → Leads M.fastForward m m' →
    Leads M.cycle m' m'' → M.isBusy m'' = false
  exact : ∀ m, M.Reachable noOverflow m → M.isBusy m = true → noOverflow m →
    M.ForwardsExactly forwardedMemory m

/-- The blocked cycles that may still follow. -/
def slack (b : BlockingCyclingMemory μ) : ℕ :=
  if opts.compositional then 0 else opts.maxBlockingPerAccess - b.addedBlocking

/-- What holds of the memories between two operations. -/
structure Inv (noOverflow : μ → Prop) (b : BlockingCyclingMemory μ) : Prop where
  reachable : M.Reachable noOverflow b.memory
  idle : b.delayedAccess = none → M.isBusy b.memory = false ∧ b.addedBlocking = 0
  busy : M.isBusy b.memory = true → b.addedBlocking = 0
  compositional : opts.compositional = true → b.delayedAccess.isSome → M.isBusy b.memory = true
  bounded : b.addedBlocking ≤ opts.maxBlockingPerAccess
  ordered : b.fastForwardedBlocking.lb ≤ b.fastForwardedBlocking.ub

variable {opts M} {forwardedMemory : μ → Set ℕ} {noOverflow : μ → Prop}
  {b b' : BlockingCyclingMemory μ} {t : ℕ}

section Cycles

theorem isBusy_of_delayed (h : b.delayedAccess.isSome) :
    (blocking opts M).isBusy b = true := by
  simp [blocking, isBusy, h]

/-- The outcomes of a split. -/
theorem leads_performSplit (hidle : M.isBusy b.memory = false) (h : b.delayedAccess.isSome) :
    Leads (performSplit opts M) b b' ↔
      b' = { b with delayedAccess := none, addedBlocking := 0 } ∨
      opts.compositional = false ∧ b.addedBlocking < opts.maxBlockingPerAccess ∧
        b' = { b with addedBlocking := b.addedBlocking + 1 } := by
  have hlt := opts.maxBlockingPerAccess_lt
  by_cases hmore : b.addedBlocking < opts.maxBlockingPerAccess
  · have hsucc : toUnsigned (b.addedBlocking + 1) = b.addedBlocking + 1 :=
      toUnsigned_of_lt (by omega)
    cases hcomp : opts.compositional <;>
      simp [Leads, performSplit, assertThat, incrementAddedBlocking, hidle, h, hmore, hcomp, hsucc,
        or_comm]
  · simp [Leads, performSplit, assertThat, hidle, h, hmore]

theorem leads_performSplit_none (hidle : M.isBusy b.memory = false) (h : b.delayedAccess = none) :
    Leads (performSplit opts M) b b' ↔ b' = b := by
  simp [Leads, performSplit, assertThat, hidle, h]

theorem performSplit_isOk (hidle : M.isBusy b.memory = false) :
    ∃ bs, performSplit opts M b = .ok bs := by
  cases h : b.delayedAccess <;> simp [performSplit, assertThat, hidle, h]

theorem leads_afterCycle {m' : μ} : Leads (afterCycle opts M b) m' b' ↔
    M.isBusy m' = true ∧ b' = { b with memory := m' } ∨
      M.isBusy m' = false ∧ Leads (performSplit opts M) { b with memory := m' } b' := by
  cases hbusy : M.isBusy m' <;> simp [Leads, afterCycle, hbusy]

/-- A cycle is one of the memory, and a split when that is idle. -/
theorem leads_cycle
    (h : b.addedBlocking ≤ if b.delayedAccess.isSome then opts.maxBlockingPerAccess else 0) :
    Leads (blocking opts M).cycle b b' ↔ ∃ m', Leads M.cycle b.memory m' ∧
      (M.isBusy m' = true ∧ b' = { b with memory := m' } ∨
        M.isBusy m' = false ∧ Leads (performSplit opts M) { b with memory := m' } b') := by
  have hcycle : (blocking opts M).cycle b =
      M.cycle b.memory >>= forEach (afterCycle opts M b) := by
    show cycle opts M b = _
    rw [cycle, assertThat_of (decide_eq_true h), ok_bind]
  have hok (m' : μ) (_ : Leads M.cycle b.memory m') : ∃ bs, afterCycle opts M b m' = .ok bs := by
    cases hbusy : M.isBusy m' with
    | true => exact ⟨_, if_pos hbusy⟩
    | false =>
      have hsplit : ∃ bs, performSplit opts M { b with memory := m' } = .ok bs :=
        performSplit_isOk hbusy
      obtain ⟨bs, hbs⟩ := hsplit
      exact ⟨bs, (if_neg (by simp [hbusy])).trans hbs⟩
  rw [Leads, hcycle, leads_bind_forEach hok]
  simp only [leads_afterCycle]

end Cycles

section Times

variable (hM : Forwards M forwardedMemory noOverflow)

theorem mem_of_idle (h : b.delayedAccess = none) (hidle : M.isBusy b.memory = false) :
    t ∈ (blocking opts M).completionTimes (forwarded forwardedMemory) b ↔
      ∃ v ∈ forwardedMemory b.memory, ∃ w ∈ b.fastForwardedBlocking.values, t = v + w :=
  Timed.mem_completionTimes_of_idle (by simp [blocking, isBusy, h, hidle])

/-- One cycle of a busy memory. -/
theorem mem_of_busy (h : b.delayedAccess.isSome) :
    t ∈ (blocking opts M).completionTimes (forwarded forwardedMemory) b ↔
      ∃ b', Leads (blocking opts M).cycle b b' ∧
        ∃ t' ∈ (blocking opts M).completionTimes (forwarded forwardedMemory) b', t = t' + 1 :=
  Timed.mem_completionTimes_of_busy (isBusy_of_delayed h)

include hM

/-- A cycle of an access that is only blocked. -/
theorem leads_of_blocked (hreach : M.Reachable noOverflow b.memory)
    (hidle : M.isBusy b.memory = false) (h : b.delayedAccess.isSome)
    (hbounded : b.addedBlocking ≤ opts.maxBlockingPerAccess) :
    Leads (blocking opts M).cycle b b' ↔ ∃ m', Leads M.cycle b.memory m' ∧
      (b' = { b with memory := m', delayedAccess := none, addedBlocking := 0 } ∨
        0 < slack opts b ∧ b' = { b with memory := m', addedBlocking := b.addedBlocking + 1 }) := by
  have hslack : 0 < slack opts b ↔
      opts.compositional = false ∧ b.addedBlocking < opts.maxBlockingPerAccess := by
    cases hcomp : opts.compositional <;> simp [slack, hcomp]
  rw [leads_cycle (by rwa [if_pos h]), hslack]
  refine exists_congr fun m' => and_congr_right fun hm' => ?_
  have hidle' := ((hM.cycleIdle b.memory hreach hidle).2 m' hm').1
  rw [leads_performSplit (b := { b with memory := m' }) hidle' h]
  simp [hidle', and_assoc]

/-- An access that is only blocked takes one cycle, and any number of the blocked ones
that are left. -/
theorem mem_of_blocked (hreach : M.Reachable noOverflow b.memory)
    (hidle : M.isBusy b.memory = false) (h : b.delayedAccess.isSome)
    (hbounded : b.addedBlocking ≤ opts.maxBlockingPerAccess) :
    t ∈ (blocking opts M).completionTimes (forwarded forwardedMemory) b ↔
      ∃ v ∈ forwardedMemory b.memory, ∃ w ∈ b.fastForwardedBlocking.values,
        ∃ j ≤ slack opts b, t = v + w + j + 1 := by
  induction hn : slack opts b generalizing b t with
  | zero =>
    obtain ⟨⟨m₀, hm₀⟩, hcycle⟩ := hM.cycleIdle b.memory hreach hidle
    rw [mem_of_busy h]
    simp only [leads_of_blocked hM hreach hidle h hbounded, hn]
    constructor
    · rintro ⟨b', ⟨m', hm', rfl | ⟨hpos, _⟩⟩, t', ht', rfl⟩
      · obtain ⟨hidle', hforwarded⟩ := hcycle m' hm'
        obtain ⟨v, hv, w, hw, rfl⟩ := (mem_of_idle rfl hidle').mp ht'
        exact ⟨v, hforwarded ▸ hv, w, hw, 0, le_rfl, rfl⟩
      · omega
    · rintro ⟨v, hv, w, hw, j, hj, rfl⟩
      obtain ⟨hidle', hforwarded⟩ := hcycle m₀ hm₀
      refine ⟨_, ⟨m₀, hm₀, .inl rfl⟩, v + w, ?_, by omega⟩
      exact (mem_of_idle rfl hidle').mpr ⟨v, hforwarded.symm ▸ hv, w, hw, rfl⟩
  | succ n ih =>
    obtain ⟨⟨m₀, hm₀⟩, hcycle⟩ := hM.cycleIdle b.memory hreach hidle
    have hmore : opts.compositional = false ∧ b.addedBlocking < opts.maxBlockingPerAccess := by
      cases hcomp : opts.compositional with
      | true => simp [slack, hcomp] at hn
      | false =>
        simp only [slack, hcomp, Bool.false_eq_true, if_false] at hn
        exact ⟨rfl, by omega⟩
    have hslack (m' : μ) :
        slack opts { b with memory := m', addedBlocking := b.addedBlocking + 1 } = n := by
      simp only [slack, hmore.1, Bool.false_eq_true, if_false] at hn ⊢
      omega
    rw [mem_of_busy h]
    simp only [leads_of_blocked hM hreach hidle h hbounded, hn]
    constructor
    · rintro ⟨b', ⟨m', hm', rfl | ⟨_, rfl⟩⟩, t', ht', rfl⟩
      · obtain ⟨hidle', hforwarded⟩ := hcycle m' hm'
        obtain ⟨v, hv, w, hw, rfl⟩ := (mem_of_idle rfl hidle').mp ht'
        exact ⟨v, hforwarded ▸ hv, w, hw, 0, Nat.zero_le _, rfl⟩
      · obtain ⟨hidle', hforwarded⟩ := hcycle m' hm'
        obtain ⟨v, hv, w, hw, j, hj, rfl⟩ :=
          (ih (b := { b with memory := m', addedBlocking := b.addedBlocking + 1 })
            (.cycle hreach hm') hidle' h hmore.2 (hslack m')).mp ht'
        exact ⟨v, hforwarded ▸ hv, w, hw, j + 1, by omega, by omega⟩
    · rintro ⟨v, hv, w, hw, j, hj, rfl⟩
      obtain ⟨hidle', hforwarded⟩ := hcycle m₀ hm₀
      rw [← hforwarded] at hv
      cases j with
      | zero =>
        refine ⟨_, ⟨m₀, hm₀, .inl rfl⟩, v + w, ?_, by omega⟩
        exact (mem_of_idle rfl hidle').mpr ⟨v, hv, w, hw, rfl⟩
      | succ j =>
        refine ⟨_, ⟨m₀, hm₀, .inr ⟨Nat.succ_pos n, rfl⟩⟩, v + w + j + 1, ?_, by omega⟩
        exact (ih (b := { b with memory := m₀, addedBlocking := b.addedBlocking + 1 })
          (.cycle hreach hm₀) hidle' h hmore.2 (hslack m₀)).mpr ⟨v, hv, w, hw, j, by omega, rfl⟩

/-- The delays by blocked cycles, those that are counted and those that may follow. -/
def delays (opts : BlockingOptions) (b : BlockingCyclingMemory μ) : Set ℕ :=
  {d | ∃ w ∈ b.fastForwardedBlocking.values, ∃ j ≤ slack opts b, d = w + j}

/-- While the memory is busy, blocked cycles come on top of its completion times. -/
theorem mem_of_memory_busy (hreach : ∀ m', Leads M.cycle b.memory m' → M.Reachable noOverflow m')
    (hbusy : M.isBusy b.memory = true) (h : b.delayedAccess.isSome)
    (hbounded : b.addedBlocking ≤ opts.maxBlockingPerAccess) :
    t ∈ (blocking opts M).completionTimes (forwarded forwardedMemory) b ↔
      ∃ y ∈ M.completionTimes forwardedMemory b.memory, ∃ d ∈ delays opts b, t = y + d := by
  refine @Timed.mem_completionTimes_wrap μ (BlockingCyclingMemory μ) (M.isBusy · = true)
    (Leads M.cycle) forwardedMemory ((blocking opts M).isBusy · = true)
    (Leads (blocking opts M).cycle) (forwarded forwardedMemory) (fun m => { b with memory := m })
    (fun m' => Leads (performSplit opts M) { b with memory := m' }) (delays opts b)
    (fun m => ∀ m', Leads M.cycle m m' → M.Reachable noOverflow m') b.memory t
    (fun _ _ => isBusy_of_delayed h) ?_ ?_ ?_ hreach hbusy
  · intro m m' hgood hm' m'' hm''
    exact .cycle (hgood m' hm') hm''
  · intro m _ _ b'
    rw [leads_cycle (b := { b with memory := m }) (by rwa [if_pos h])]
    simp only [Bool.not_eq_true]
  · intro m m' hgood hm' hidle t
    rw [Bool.not_eq_true] at hidle
    simp only [leads_performSplit (b := { b with memory := m' }) hidle h]
    constructor
    · rintro ⟨b', rfl | ⟨hcomp, hmore, rfl⟩, ht⟩
      · obtain ⟨v, hv, w, hw, rfl⟩ := (mem_of_idle rfl hidle).mp ht
        exact ⟨v, hv, w, ⟨w, hw, 0, Nat.zero_le _, rfl⟩, rfl⟩
      · obtain ⟨v, hv, w, hw, j, hj, rfl⟩ :=
          (mem_of_blocked (b := { b with memory := m', addedBlocking := b.addedBlocking + 1 }) hM
            (hgood m' hm') hidle h hmore).mp ht
        simp only [slack, hcomp, Bool.false_eq_true, if_false] at hj
        have hlate : j + 1 ≤ slack opts b := by
          simp only [slack, hcomp, Bool.false_eq_true, if_false]
          omega
        exact ⟨v, hv, w + (j + 1), ⟨w, hw, j + 1, hlate, rfl⟩, by omega⟩
    · rintro ⟨v, hv, _, ⟨w, hw, j, hj, rfl⟩, rfl⟩
      cases j with
      | zero => exact ⟨_, .inl rfl, (mem_of_idle rfl hidle).mpr ⟨v, hv, w, hw, rfl⟩⟩
      | succ j =>
        cases hcomp : opts.compositional with
        | true => simp [slack, hcomp] at hj
        | false =>
          simp only [slack, hcomp, Bool.false_eq_true, if_false] at hj
          refine ⟨_, .inr ⟨rfl, by omega, rfl⟩, ?_⟩
          refine (mem_of_blocked (b := { b with
            memory := m', addedBlocking := b.addedBlocking + 1 }) hM (hgood m' hm') hidle h
              (by dsimp only; omega)).mpr ⟨v, hv, w, hw, j, ?_, by omega⟩
          simp only [slack, hcomp, Bool.false_eq_true, if_false]
          omega

end Times

section Forwarding

/-- The memory after its possible blocked cycles are counted. -/
def skipBlocking (opts : BlockingOptions) (b : BlockingCyclingMemory μ) :
    BlockingCyclingMemory μ :=
  if opts.compositional then b
  else { b with
    addedBlocking := opts.maxBlockingPerAccess
    fastForwardedBlocking :=
      b.fastForwardedBlocking.add ⟨0, opts.maxBlockingPerAccess - b.addedBlocking⟩ }

@[simp] theorem skipBlocking_memory : (skipBlocking opts b).memory = b.memory := by
  unfold skipBlocking
  split <;> rfl

@[simp] theorem skipBlocking_delayedAccess :
    (skipBlocking opts b).delayedAccess = b.delayedAccess := by
  unfold skipBlocking
  split <;> rfl

theorem skipBlocking_bounded (h : b.addedBlocking ≤ opts.maxBlockingPerAccess) :
    (skipBlocking opts b).addedBlocking ≤ opts.maxBlockingPerAccess := by
  unfold skipBlocking
  split
  · exact h
  · exact le_rfl

theorem skipBlocking_ordered (h : b.fastForwardedBlocking.lb ≤ b.fastForwardedBlocking.ub)
    (hoverflow : b.fastForwardedBlocking.ub + (if opts.compositional then 0
      else opts.maxBlockingPerAccess - b.addedBlocking) < 2 ^ 32) :
    (skipBlocking opts b).fastForwardedBlocking.lb ≤
      (skipBlocking opts b).fastForwardedBlocking.ub := by
  cases hcomp : opts.compositional with
  | true => simpa [skipBlocking, hcomp] using h
  | false =>
    rw [hcomp, if_neg Bool.false_ne_true] at hoverflow
    simpa [skipBlocking, hcomp] using IntervalCounter.add_ordered h (Nat.zero_le _) hoverflow

theorem slack_skipBlocking : slack opts (skipBlocking opts b) = 0 := by
  cases hcomp : opts.compositional <;> simp [slack, skipBlocking, hcomp]

/-- The memory is forwarded if it is busy. -/
theorem leads_fastForward_of_busy (hbusy : M.isBusy b.memory = true) (h : b.delayedAccess.isSome)
    (hadded : b.addedBlocking = 0) : Leads (blocking opts M).fastForward b b' ↔
      ∃ m', Leads M.fastForward b.memory m' ∧ b' = skipBlocking opts { b with memory := m' } := by
  have hround (m' : μ) : (if opts.compositional then .ok [{ b with memory := m' }] else do
      assertThat (b.addedBlocking == 0)
        "Not started with blocking phase, but have blocked cycles already"
      .ok [{ b with
        memory := m'
        addedBlocking := opts.maxBlockingPerAccess
        fastForwardedBlocking := b.fastForwardedBlocking.add ⟨0, opts.maxBlockingPerAccess⟩ }] :
      Except Fault (List (BlockingCyclingMemory μ))) =
        .ok [skipBlocking opts { b with memory := m' }] := by
    cases hcomp : opts.compositional <;> simp [assertThat, skipBlocking, hadded, hcomp]
  have hforward : (blocking opts M).fastForward b = M.fastForward b.memory >>=
      forEach fun m' => .ok [skipBlocking opts { b with memory := m' }] := by
    have hb : isBusy M b = true := by simp [isBusy, h]
    show fastForward opts M b = _
    rw [fastForward, assertThat_of hb, ok_bind, assertThat_of h, ok_bind, if_pos hbusy]
    simp only [hround]
  rw [Leads, hforward, leads_bind_forEach fun m' _ => ⟨_, rfl⟩]
  simp [Leads]

theorem leads_fastForward_of_idle (hidle : M.isBusy b.memory = false) (h : b.delayedAccess.isSome)
    (hcomp : opts.compositional = false) :
    Leads (blocking opts M).fastForward b b' ↔ b' = skipBlocking opts b := by
  simp [Leads, blocking, fastForward, assertThat, isBusy, skipBlocking, hidle, h, hcomp]

end Forwarding

section Invariant

variable (hM : Forwards M forwardedMemory noOverflow)

theorem Inv.delayed (h : Inv opts M noOverflow b) (hbusy : isBusy M b = true) :
    b.delayedAccess.isSome := by
  cases hdelayed : b.delayedAccess with
  | none => simp [isBusy, hdelayed, (h.idle hdelayed).1] at hbusy
  | some => rfl

theorem Inv.addedBlocking_le (h : Inv opts M noOverflow b) :
    b.addedBlocking ≤ if b.delayedAccess.isSome then opts.maxBlockingPerAccess else 0 := by
  cases hdelayed : b.delayedAccess with
  | none => simp [(h.idle hdelayed).2]
  | some => simpa using h.bounded

theorem Inv.announceAccess {addr : AbstractAddress} {ty : AccessType} {numWords : ℕ}
    (h : Inv opts M noOverflow b)
    (hb' : Leads ((blocking opts M).announceAccess · addr ty numWords) b b') :
    Inv opts M noOverflow b' := by
  obtain ⟨_, hannounce, hmem⟩ := hb'
  obtain ⟨_, hassert, hannounce⟩ := bind_eq_ok.mp hannounce
  obtain ⟨ms, hms, hannounce⟩ := bind_eq_ok.mp hannounce
  obtain ⟨m', hm', _, hround, hb'⟩ := (mem_forEach hannounce).mp hmem
  obtain ⟨_, hbusy, hround⟩ := bind_eq_ok.mp hround
  cases hround
  cases List.mem_singleton.mp hb'
  have hidle : isBusy M b = false := by simpa using of_assertThat hassert
  have hnone : b.delayedAccess = none := by
    simp only [isBusy, Bool.or_eq_false_iff] at hidle
    simpa using hidle.1
  have hzero := (h.idle hnone).2
  exact ⟨.announceAccess h.reachable ⟨ms, hms, hm'⟩, fun hne => (nomatch hne), fun _ => hzero,
    fun _ _ => of_assertThat hbusy, h.bounded, h.ordered⟩

/-- What a split keeps. -/
theorem inv_of_split (hreach : M.Reachable noOverflow b.memory)
    (hidle : M.isBusy b.memory = false)
    (hordered : b.fastForwardedBlocking.lb ≤ b.fastForwardedBlocking.ub)
    (h : b.delayedAccess.isSome) (hb' : Leads (performSplit opts M) b b') :
    Inv opts M noOverflow b' := by
  rcases (leads_performSplit hidle h).mp hb' with rfl | ⟨hcomp, hmore, rfl⟩
  · exact ⟨hreach, fun _ => ⟨hidle, rfl⟩, fun _ => rfl, fun _ hne => (nomatch hne), Nat.zero_le _,
      hordered⟩
  · refine ⟨hreach, fun hnone => ?_, fun hbusy => ?_, fun htrue => ?_, hmore, hordered⟩
    · rw [show b.delayedAccess = none from hnone] at h
      cases h
    · rw [hidle] at hbusy
      cases hbusy
    · rw [hcomp] at htrue
      cases htrue

/-- A cycle that completes an access whose blocked cycles are counted. -/
theorem inv_of_skip (h : b.delayedAccess.isSome)
    (hbounded : b.addedBlocking ≤ opts.maxBlockingPerAccess)
    (hordered : b.fastForwardedBlocking.lb ≤ b.fastForwardedBlocking.ub)
    (hoverflow : b.fastForwardedBlocking.ub + (if opts.compositional then 0
      else opts.maxBlockingPerAccess - b.addedBlocking) < 2 ^ 32)
    (hmemory : ∀ m', Leads M.cycle b.memory m' →
      M.Reachable noOverflow m' ∧ M.isBusy m' = false)
    (hb' : Leads (blocking opts M).cycle (skipBlocking opts b) b') : Inv opts M noOverflow b' := by
  have hle : (skipBlocking opts b).addedBlocking ≤
      if (skipBlocking opts b).delayedAccess.isSome then opts.maxBlockingPerAccess else 0 := by
    rw [skipBlocking_delayedAccess, if_pos h]
    exact skipBlocking_bounded hbounded
  obtain ⟨m', hm', hafter⟩ := (leads_cycle hle).mp hb'
  rw [skipBlocking_memory] at hm'
  obtain ⟨hreach, hidle⟩ := hmemory m' hm'
  rcases hafter with ⟨hbusy, _⟩ | ⟨_, hsplit⟩
  · rw [hidle] at hbusy
    cases hbusy
  · refine inv_of_split ?_ ?_ ?_ ?_ hsplit
    · exact hreach
    · exact hidle
    · exact skipBlocking_ordered hordered hoverflow
    · simpa using h

include hM

theorem Inv.new : Inv opts M noOverflow (new M) := by
  have hidle := hM.newIdle
  refine ⟨.new, fun _ => ⟨hidle, rfl⟩, fun _ => rfl, fun _ hne => (nomatch hne), Nat.zero_le _,
    le_rfl⟩

theorem Inv.cycle (h : Inv opts M noOverflow b) (hb' : Leads (blocking opts M).cycle b b') :
    Inv opts M noOverflow b' := by
  obtain ⟨m', hm', ⟨hbusy', rfl⟩ | ⟨hidle', hsplit⟩⟩ := (leads_cycle h.addedBlocking_le).mp hb'
  · have hbusy : M.isBusy b.memory = true := by
      by_contra hidle
      rw [Bool.not_eq_true] at hidle
      rw [((hM.cycleIdle b.memory h.reachable hidle).2 m' hm').1] at hbusy'
      cases hbusy'
    refine ⟨.cycle h.reachable hm', fun hnone => ?_, fun _ => h.busy hbusy, fun _ _ => hbusy',
      h.bounded, h.ordered⟩
    rw [(h.idle hnone).1] at hbusy
    cases hbusy
  · cases hdelayed : b.delayedAccess with
    | none =>
      cases (leads_performSplit_none (b := { b with memory := m' }) hidle' hdelayed).mp hsplit
      refine ⟨.cycle h.reachable hm', fun _ => ⟨hidle', (h.idle hdelayed).2⟩, fun _ => ?_,
        fun _ hsome => ?_, h.bounded, h.ordered⟩
      · exact (h.idle hdelayed).2
      · rw [show b.delayedAccess = none from hdelayed] at hsome
        cases hsome
    | some =>
      exact inv_of_split (b := { b with memory := m' }) (.cycle h.reachable hm') hidle' h.ordered
        (by simp [hdelayed]) hsplit

/-- The cycle after a fast-forward completes the access. -/
theorem Inv.fastForward {b'' : BlockingCyclingMemory μ} (h : Inv opts M noOverflow b)
    (hoverflow : NoOverflow opts M noOverflow b) (hb' : Leads (blocking opts M).fastForward b b')
    (hb'' : Leads (blocking opts M).cycle b' b'') : Inv opts M noOverflow b'' := by
  have hbusy : isBusy M b = true := by
    obtain ⟨_, hforward, _⟩ := hb'
    obtain ⟨_, hassert, _⟩ := bind_eq_ok.mp hforward
    exact of_assertThat hassert
  have hdelayed := h.delayed hbusy
  cases hmemory : M.isBusy b.memory with
  | true =>
    obtain ⟨m', hm', rfl⟩ := (leads_fastForward_of_busy hmemory hdelayed (h.busy hmemory)).mp hb'
    refine inv_of_skip (b := { b with memory := m' }) hdelayed h.bounded h.ordered hoverflow.2
      (fun m'' hm'' => ?_) hb''
    exact ⟨.fastForward h.reachable (hoverflow.1 hmemory) hm' hm'',
      hM.completes b.memory m' m'' h.reachable hm' hm''⟩
  | false =>
    have hcomp : opts.compositional = false := by
      by_contra hcomp
      rw [Bool.not_eq_false] at hcomp
      rw [h.compositional hcomp hdelayed] at hmemory
      cases hmemory
    cases (leads_fastForward_of_idle hmemory hdelayed hcomp).mp hb'
    refine inv_of_skip hdelayed h.bounded h.ordered hoverflow.2 (fun m'' hm'' => ?_) hb''
    exact ⟨.cycle h.reachable hm'', ((hM.cycleIdle b.memory h.reachable hmemory).2 m'' hm'').1⟩

/-- The invariant holds in every run without an overflow. -/
theorem inv_of_reachable
    (h : (blocking opts M).Reachable (NoOverflow opts M noOverflow) b) :
    Inv opts M noOverflow b := by
  induction h with
  | new => exact Inv.new hM
  | announceAccess _ hb' ih => exact ih.announceAccess hb'
  | cycle _ hb' ih => exact ih.cycle hM hb'
  | fastForward _ hoverflow hb' hb'' ih => exact ih.fastForward hM hoverflow hb' hb''

end Invariant

/-- The delays of a memory are the same before and after its blocked cycles are counted. -/
theorem mem_delays_skipBlocking (hordered : b.fastForwardedBlocking.lb ≤ b.fastForwardedBlocking.ub)
    (hoverflow : b.fastForwardedBlocking.ub + (if opts.compositional then 0
      else opts.maxBlockingPerAccess - b.addedBlocking) < 2 ^ 32) {d : ℕ} :
    d ∈ delays opts (skipBlocking opts b) ↔ d ∈ delays opts b := by
  cases hcomp : opts.compositional with
  | true => simp [skipBlocking, hcomp]
  | false =>
    rw [hcomp, if_neg Bool.false_ne_true] at hoverflow
    have hadd (w : ℕ) : w ∈ (skipBlocking opts b).fastForwardedBlocking.values ↔
        ∃ x ∈ b.fastForwardedBlocking.values,
          ∃ y ∈ (⟨0, opts.maxBlockingPerAccess - b.addedBlocking⟩ : IntervalCounter).values,
            w = x + y := by
      rw [skipBlocking, hcomp, if_neg Bool.false_ne_true]
      exact IntervalCounter.mem_values_add hordered (Nat.zero_le _) hoverflow
    have hslack : slack opts b = opts.maxBlockingPerAccess - b.addedBlocking := by
      simp [slack, hcomp]
    constructor
    · rintro ⟨w, hw, j, hj, rfl⟩
      rw [slack_skipBlocking, Nat.le_zero] at hj
      subst hj
      obtain ⟨x, hx, y, hy, rfl⟩ := (hadd w).mp hw
      exact ⟨x, hx, y, hslack ▸ hy.2, rfl⟩
    · rintro ⟨w, hw, j, hj, rfl⟩
      exact ⟨w + j, (hadd _).mpr ⟨w, hw, j, ⟨Nat.zero_le j, hslack ▸ hj⟩, rfl⟩, 0, Nat.zero_le _,
        rfl⟩

/-- One fast-forward, then cycling, takes just as long as cycling. -/
theorem forwardsExactly (hM : Forwards M forwardedMemory noOverflow)
    (h : Inv opts M noOverflow b) (hoverflow : NoOverflow opts M noOverflow b)
    (hbusy : isBusy M b = true) :
    (blocking opts M).ForwardsExactly (forwarded forwardedMemory) b := by
  intro t
  have hdelayed := h.delayed hbusy
  cases hmemory : M.isBusy b.memory with
  | true =>
    have hexact := hM.exact b.memory h.reachable hmemory (hoverflow.1 hmemory)
    have htimes (m' : μ) (hm' : Leads M.fastForward b.memory m') :
        t ∈ (blocking opts M).completionTimes (forwarded forwardedMemory)
          (skipBlocking opts { b with memory := m' }) ↔
        ∃ y ∈ M.completionTimes forwardedMemory m', ∃ d ∈ delays opts b, t = y + d := by
      have hbusy' := hM.staysBusy b.memory m' hm'
      have hbounded : (skipBlocking opts { b with memory := m' }).addedBlocking ≤
        opts.maxBlockingPerAccess := skipBlocking_bounded h.bounded
      rw [mem_of_memory_busy hM _ (by simpa using hbusy') (by simpa using hdelayed) hbounded,
        skipBlocking_memory]
      · simp only [mem_delays_skipBlocking (b := { b with memory := m' }) h.ordered hoverflow.2]
        rfl
      · intro m'' hm''
        rw [skipBlocking_memory] at hm''
        exact .fastForward h.reachable (hoverflow.1 hmemory) hm' hm''
    rw [mem_of_memory_busy hM (fun m' hm' => .cycle h.reachable hm') hmemory hdelayed h.bounded]
    simp only [leads_fastForward_of_busy hmemory hdelayed (h.busy hmemory)]
    constructor
    · rintro ⟨_, ⟨m', hm', rfl⟩, ht⟩
      obtain ⟨y, hy, d, hd, rfl⟩ := (htimes m' hm').mp ht
      exact ⟨y, (hexact y).mp ⟨m', hm', hy⟩, d, hd, rfl⟩
    · rintro ⟨y, hy, d, hd, rfl⟩
      obtain ⟨m', hm', hy'⟩ := (hexact y).mpr hy
      exact ⟨_, ⟨m', hm', rfl⟩, (htimes m' hm').mpr ⟨y, hy', d, hd, rfl⟩⟩
  | false =>
    have hcomp : opts.compositional = false := by
      by_contra hcomp
      rw [Bool.not_eq_false] at hcomp
      rw [h.compositional hcomp hdelayed] at hmemory
      cases hmemory
    simp only [leads_fastForward_of_idle hmemory hdelayed hcomp, exists_eq_left]
    rw [mem_of_blocked hM h.reachable hmemory hdelayed h.bounded,
      mem_of_blocked hM (by simpa using h.reachable) (by simpa using hmemory)
        (by simpa using hdelayed) (skipBlocking_bounded h.bounded), skipBlocking_memory]
    have hdelays := @mem_delays_skipBlocking _ opts b h.ordered hoverflow.2
    constructor
    · rintro ⟨v, hv, w, hw, j, hj, rfl⟩
      obtain ⟨w', hw', j', hj', hsum⟩ := hdelays.mp ⟨w, hw, j, hj, rfl⟩
      exact ⟨v, hv, w', hw', j', hj', by omega⟩
    · rintro ⟨v, hv, w, hw, j, hj, rfl⟩
      obtain ⟨w', hw', j', hj', hsum⟩ := hdelays.mpr ⟨w, hw, j, hj, rfl⟩
      exact ⟨v, hv, w', hw', j', hj', by omega⟩

section SDRAM

open SimpleSDRAMCyclingMemory

/-- The memory with refreshes can be wrapped. -/
theorem forwards_sdram (sdram : SDRAMOptions) :
    Forwards (SimpleSDRAMCyclingMemory.memory sdram) SimpleSDRAMCyclingMemory.forwarded
      (SimpleSDRAMCyclingMemory.NoOverflow sdram) := by
  constructor
  · rfl
  · intro m hreach hidle
    have hinv := SimpleSDRAMCyclingMemory.inv_of_reachable hreach
    have hphase : m.accessPhase = .idle := by
      simpa [SimpleSDRAMCyclingMemory.memory, SimpleSDRAMCyclingMemory.isBusy] using hidle
    have hzero := hinv.idle hphase
    constructor
    · exact ⟨_, (leads_of_zero hzero).mpr rfl⟩
    · intro m' hm'
      cases (leads_of_zero hzero).mp hm'
      exact ⟨hidle, rfl⟩
  · intro m m' hm'
    have hbusy := isBusy_of_leads_fastForward hm'
    rw [← accessPhase_of_leads_fastForward hm'] at hbusy
    exact isBusy_iff.mpr hbusy
  · intro m m' m'' hreach hm' hm''
    rw [idle_after_fastForward (SimpleSDRAMCyclingMemory.inv_of_reachable hreach) hm' hm'']
    rfl
  · intro m hreach hbusy hoverflow
    have hinv := SimpleSDRAMCyclingMemory.inv_of_reachable hreach
    exact SimpleSDRAMCyclingMemory.forwardsExactly hinv hoverflow (isBusy_iff.mp hbusy)

/-- In runs in which no counter overflows a fast-forward of a busy memory changes no
completion time, with or without blocking. -/
theorem fastForward_exact (sdram : SDRAMOptions) (opts : BlockingOptions) :
    (∀ m, (SimpleSDRAMCyclingMemory.memory sdram).Reachable
        (SimpleSDRAMCyclingMemory.NoOverflow sdram) m →
      (SimpleSDRAMCyclingMemory.memory sdram).isBusy m = true →
        SimpleSDRAMCyclingMemory.NoOverflow sdram m →
          (SimpleSDRAMCyclingMemory.memory sdram).ForwardsExactly
            SimpleSDRAMCyclingMemory.forwarded m) ∧
    ∀ b, (blocking opts (SimpleSDRAMCyclingMemory.memory sdram)).Reachable
        (NoOverflow opts (SimpleSDRAMCyclingMemory.memory sdram)
          (SimpleSDRAMCyclingMemory.NoOverflow sdram)) b →
      (blocking opts (SimpleSDRAMCyclingMemory.memory sdram)).isBusy b = true →
        NoOverflow opts (SimpleSDRAMCyclingMemory.memory sdram)
          (SimpleSDRAMCyclingMemory.NoOverflow sdram) b →
          (blocking opts (SimpleSDRAMCyclingMemory.memory sdram)).ForwardsExactly
            (forwarded SimpleSDRAMCyclingMemory.forwarded) b := by
  have hM := forwards_sdram sdram
  constructor
  · intro m hreach hbusy hoverflow
    exact hM.exact m hreach hbusy hoverflow
  · intro b hreach hbusy hoverflow
    exact forwardsExactly hM (inv_of_reachable hM hreach) hoverflow hbusy

/-- The memory when the first access, to one word, is announced. -/
def announced (sdram : SDRAMOptions) : SimpleSDRAMCyclingMemory :=
  ⟨.access, toUnsigned (sdram.latency + sdram.perWordLatency * 1), none, false, .ofValue 0⟩

theorem reachable_announced (sdram : SDRAMOptions) (permitted : SimpleSDRAMCyclingMemory → Prop) :
    (SimpleSDRAMCyclingMemory.memory sdram).Reachable permitted (announced sdram) := by
  have hlead : Leads ((SimpleSDRAMCyclingMemory.memory sdram).announceAccess ·
      .getUnknownAddress .load 1) SimpleSDRAMCyclingMemory.new (announced sdram) :=
    ⟨_, rfl, List.mem_singleton_self _⟩
  exact .announceAccess .new hlead

def blocked (sdram : SDRAMOptions) : BlockingCyclingMemory SimpleSDRAMCyclingMemory :=
  ⟨announced sdram, some (.getUnknownAddress, .load), 0, .ofValue 0⟩

theorem reachable_blocked (sdram : SDRAMOptions) (opts : BlockingOptions)
    (permitted : BlockingCyclingMemory SimpleSDRAMCyclingMemory → Prop) :
    (blocking opts (SimpleSDRAMCyclingMemory.memory sdram)).Reachable permitted
      (blocked sdram) := by
  have hlead : Leads ((blocking opts (SimpleSDRAMCyclingMemory.memory sdram)).announceAccess ·
      .getUnknownAddress .load 1) (new (SimpleSDRAMCyclingMemory.memory sdram))
        (blocked sdram) := ⟨_, rfl, List.mem_singleton_self _⟩
  exact .announceAccess .new hlead

def defaultSDRAM : SDRAMOptions := ⟨131, 1, 7, false, false⟩

def defaultBlocking : BlockingOptions := ⟨132, by decide, false, false⟩

theorem fastForward_exact_announced :
    (SimpleSDRAMCyclingMemory.memory defaultSDRAM).ForwardsExactly
      SimpleSDRAMCyclingMemory.forwarded (announced defaultSDRAM) ∧
    (blocking defaultBlocking (SimpleSDRAMCyclingMemory.memory defaultSDRAM)).ForwardsExactly
      (forwarded SimpleSDRAMCyclingMemory.forwarded) (blocked defaultSDRAM) := by
  have hoverflow : SimpleSDRAMCyclingMemory.NoOverflow defaultSDRAM (announced defaultSDRAM) := by
    unfold SimpleSDRAMCyclingMemory.NoOverflow
    decide
  have hblocking : (blocked defaultSDRAM).fastForwardedBlocking.ub +
      (if defaultBlocking.compositional then 0
        else defaultBlocking.maxBlockingPerAccess - (blocked defaultSDRAM).addedBlocking) <
        2 ^ 32 := by decide
  exact ⟨(fastForward_exact defaultSDRAM defaultBlocking).1 _ (reachable_announced _ _) rfl
      hoverflow,
    (fastForward_exact defaultSDRAM defaultBlocking).2 _ (reachable_blocked _ _ _) rfl
      ⟨fun _ => hoverflow, hblocking⟩⟩

/-- Refreshes may take so long that the counter of the cycles overflows. -/
def longRefresh : SDRAMOptions := ⟨1, 1, 2 ^ 32 - 1, false, false⟩

/-- With an overflow completion times are lost. -/
theorem fastForward_overflow : ¬ ∀ (sdram : SDRAMOptions) (opts : BlockingOptions),
    (∀ m, (SimpleSDRAMCyclingMemory.memory sdram).Reachable (fun _ => True) m →
      (SimpleSDRAMCyclingMemory.memory sdram).isBusy m = true →
        (SimpleSDRAMCyclingMemory.memory sdram).ForwardsExactly
          SimpleSDRAMCyclingMemory.forwarded m) ∧
    ∀ b, (blocking opts (SimpleSDRAMCyclingMemory.memory sdram)).Reachable (fun _ => True) b →
      (blocking opts (SimpleSDRAMCyclingMemory.memory sdram)).isBusy b = true →
        (blocking opts (SimpleSDRAMCyclingMemory.memory sdram)).ForwardsExactly
          (forwarded SimpleSDRAMCyclingMemory.forwarded) b := by
  intro h
  have hexact := (h longRefresh defaultBlocking).1 _ (reachable_announced _ _) rfl 3
  have htime : (announced longRefresh).timeBlocked = 1 + 1 := rfl
  have hcycled : 3 ∈ (SimpleSDRAMCyclingMemory.memory longRefresh).completionTimes
      SimpleSDRAMCyclingMemory.forwarded (announced longRefresh) :=
    (mem_of_access le_rfl rfl htime).mpr ⟨by decide, by decide⟩
  obtain ⟨m', hm', hforwarded⟩ := hexact.mpr hcycled
  rcases (leads_fastForward_of_access rfl htime rfl).mp hm' with rfl | ⟨_, rfl⟩
  · have hshort := (mem_of_access (m := forwardedAccess longRefresh (announced longRefresh) 1)
      le_rfl rfl rfl).mp hforwarded
    exact absurd hshort.2 (by decide)
  · -- the bounds of the counter are one and zero
    obtain ⟨m'', hm'', t', ht', _⟩ := (SimpleSDRAMCyclingMemory.mem_of_busy (by decide)).mp hforwarded
    rcases (leads_of_access_end rfl rfl).mp hm'' with rfl | ⟨_, hseen, _⟩
    · obtain ⟨hlb, hub⟩ := (SimpleSDRAMCyclingMemory.mem_of_idle rfl).mp ht'
      have hbounds : (forwardedRefreshing longRefresh (announced longRefresh)
          1).fastForwardedAccessCycles = ⟨1, 0⟩ := by decide
      simp only [hbounds] at hlb hub
      omega
    · cases hseen

end SDRAM

end BlockingCyclingMemory

end Llvmta
