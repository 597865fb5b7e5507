import Llvmta.Memory.AbstractCyclingMemory

/-!
# A memory with refreshes

An access takes a fixed time. A refresh may follow, which takes up to a fixed
time, and the access is not complete until it is over. Fast-forwarding an access
splits it into one with and one without a refresh.
-/

namespace Llvmta

open Checked

inductive DRAMPhase where
  | idle
  | refresh
  | access
  deriving DecidableEq, Repr

/-- The options that concern the memory. -/
structure SDRAMOptions where
  latency : ℕ
  perWordLatency : ℕ
  dramRefreshLatency : ℕ
  /-- refreshes are analysed compositionally -/
  compositional : Bool
  stallOnRefresh : Bool
  deriving DecidableEq, Repr

/-- The longest possible burst access in words. -/
def maxBurstLength : ℕ := 8

structure SimpleSDRAMCyclingMemory where
  accessPhase : DRAMPhase
  /-- time until the phase can switch -/
  timeBlocked : ℕ
  justRefreshed : Option AbstractAddress
  /-- the refresh after the access is already accounted for -/
  hasSeenRefresh : Bool
  fastForwardedAccessCycles : IntervalCounter
  deriving DecidableEq, Repr

namespace SimpleSDRAMCyclingMemory

variable (opts : SDRAMOptions)

def new : SimpleSDRAMCyclingMemory := ⟨.idle, 0, none, false, .ofValue 0⟩

def isBusy (m : SimpleSDRAMCyclingMemory) : Bool := m.accessPhase != .idle

def cycle (m : SimpleSDRAMCyclingMemory) : Except Fault (List SimpleSDRAMCyclingMemory) :=
  let r := { m with justRefreshed := none }
  if 0 < r.timeBlocked then do
    assertThat (r.accessPhase != .idle) "Cannot have remaining time in IDLE"
    let r := { r with timeBlocked := r.timeBlocked - 1 }
    if r.accessPhase = .access ∧ r.timeBlocked = 0 then
      let ref := { r with
        accessPhase := .refresh
        timeBlocked := opts.dramRefreshLatency
        justRefreshed := some .getUnknownAddress }
      .ok ((if !opts.compositional && !r.hasSeenRefresh then [ref] else []) ++
        [{ r with accessPhase := .idle, hasSeenRefresh := false }])
    else if r.accessPhase = .refresh ∧ r.timeBlocked = 0 then
      .ok [{ r with accessPhase := .idle }]
    else if r.accessPhase = .refresh then
      -- the refresh may already be finished
      let endref := { r with accessPhase := .idle, timeBlocked := 0 }
      .ok ((if !opts.compositional then [endref] else []) ++ [r])
    else .ok [r]
  else .ok [r]

def shouldPipelineStall (m : SimpleSDRAMCyclingMemory) : Bool :=
  opts.stallOnRefresh && m.accessPhase == .refresh

def isJoinable (m m' : SimpleSDRAMCyclingMemory) : Bool :=
  m.accessPhase == m'.accessPhase && m.timeBlocked == m'.timeBlocked &&
    m.hasSeenRefresh == m'.hasSeenRefresh

def join (m m' : SimpleSDRAMCyclingMemory) : Except Fault SimpleSDRAMCyclingMemory := do
  assertThat (isJoinable m m') "Cannot join non-joinable generic cycling memories"
  .ok { m with
    justRefreshed := if m.justRefreshed = m'.justRefreshed then m.justRefreshed else none
    fastForwardedAccessCycles := m.fastForwardedAccessCycles.join m'.fastForwardedAccessCycles }

def resetLocalMetrics (m : SimpleSDRAMCyclingMemory) : SimpleSDRAMCyclingMemory :=
  { m with justRefreshed := none, fastForwardedAccessCycles := .ofValue 0 }

def announceAccess (m : SimpleSDRAMCyclingMemory) (_addr : AbstractAddress) (_t : AccessType)
    (numWords : ℕ) : Except Fault (List SimpleSDRAMCyclingMemory) := do
  assertThat (!isBusy m) "Cannot announce access if busy"
  assertThat (!m.hasSeenRefresh) "Internal: Forgot to reset flag"
  assertThat (numWords ≤ maxBurstLength) "numWords <= SDRAMConfig.maxBurstLength"
  .ok [{ m with
    accessPhase := .access
    timeBlocked := toUnsigned (opts.latency + opts.perWordLatency * numWords) }]

def fastForward (m : SimpleSDRAMCyclingMemory) : Except Fault (List SimpleSDRAMCyclingMemory) := do
  assertThat (isBusy m) "One should only fast-forward busy memories!"
  match m.accessPhase with
  | .access =>
    assertThat m.justRefreshed.isNone "During access phase, cannot have refresh event"
    assertThat (0 < m.timeBlocked) " Should not forward in backwards direction"
    let additionalTime : IntervalCounter :=
      ⟨m.timeBlocked - 1, toUnsigned (m.timeBlocked - 1 + opts.dramRefreshLatency)⟩
    let ref := { m with
      fastForwardedAccessCycles := m.fastForwardedAccessCycles.add additionalTime
      justRefreshed := some .getUnknownAddress
      timeBlocked := 1
      hasSeenRefresh := true }
    .ok ((if !opts.compositional then [ref] else []) ++
      [{ m with
        fastForwardedAccessCycles :=
          m.fastForwardedAccessCycles.add (.ofValue (m.timeBlocked - 1))
        timeBlocked := 1
        hasSeenRefresh := m.hasSeenRefresh || !opts.compositional }])
  | .refresh =>
    assertThat (0 < m.timeBlocked) "Should not forward in backwards direction"
    .ok [{ m with
      fastForwardedAccessCycles := m.fastForwardedAccessCycles.add ⟨0, m.timeBlocked - 1⟩
      timeBlocked := 1 }]
  | .idle => .error (.assertion "Cannot fast forward while being idle")

/-- The memory as a cycling memory. -/
def memory : AbstractCyclingMemory SimpleSDRAMCyclingMemory where
  new := new
  isBusy := isBusy
  cycle := cycle opts
  announceAccess := announceAccess opts
  fastForward := fastForward opts
  shouldPipelineStall := shouldPipelineStall opts
  isJoinable := isJoinable
  join := join
  resetLocalMetrics := resetLocalMetrics

/-- The cycles that were left out. -/
def forwarded (m : SimpleSDRAMCyclingMemory) : Set ℕ := m.fastForwardedAccessCycles.values

/-- The counter of the cycles that are left out does not overflow in a fast-forward. -/
def NoOverflow (m : SimpleSDRAMCyclingMemory) : Prop :=
  m.fastForwardedAccessCycles.ub + (m.timeBlocked - 1) +
    (if m.accessPhase = .access ∧ opts.compositional = false then opts.dramRefreshLatency
      else 0) < 2 ^ 32

/-- What holds of the memories between two operations. -/
structure Inv (m : SimpleSDRAMCyclingMemory) : Prop where
  ordered : m.fastForwardedAccessCycles.lb ≤ m.fastForwardedAccessCycles.ub
  unseen : m.hasSeenRefresh = false
  idle : m.accessPhase = .idle → m.timeBlocked = 0
  refresh : m.accessPhase = .refresh → opts.compositional = false
  noEvent : m.accessPhase ≠ .refresh → m.justRefreshed = none

variable {opts} {m m' : SimpleSDRAMCyclingMemory} {t : ℕ}

section Cycles

theorem isBusy_iff : (memory opts).isBusy m = true ↔ m.accessPhase ≠ .idle := by
  simp [memory, isBusy]

theorem leads_of_zero (h : m.timeBlocked = 0) :
    Leads (memory opts).cycle m m' ↔ m' = { m with justRefreshed := none } := by
  have hcycle : (memory opts).cycle m = .ok [{ m with justRefreshed := none }] :=
    if_neg (by simp [h])
  rw [leads_of_eq hcycle, List.mem_singleton]

theorem leads_of_access {k : ℕ} (hphase : m.accessPhase = .access) (h : m.timeBlocked = k + 2) :
    Leads (memory opts).cycle m m' ↔ m' = { m with justRefreshed := none, timeBlocked := k + 1 } := by
  have hcycle : (memory opts).cycle m =
      .ok [{ m with justRefreshed := none, timeBlocked := k + 1 }] := by
    simp [memory, cycle, assertThat, hphase, h]
  rw [leads_of_eq hcycle, List.mem_singleton]

/-- At the end of an access the memory gets idle, or a refresh starts. -/
theorem leads_of_access_end (hphase : m.accessPhase = .access) (h : m.timeBlocked = 1) :
    Leads (memory opts).cycle m m' ↔
      m' = { m with
        justRefreshed := none, timeBlocked := 0, accessPhase := .idle, hasSeenRefresh := false } ∨
      opts.compositional = false ∧ m.hasSeenRefresh = false ∧
        m' = { m with
          accessPhase := .refresh
          timeBlocked := opts.dramRefreshLatency
          justRefreshed := some .getUnknownAddress } := by
  cases hcomp : opts.compositional <;> cases hseen : m.hasSeenRefresh <;>
    simp [Leads, memory, cycle, assertThat, hphase, h, hcomp, hseen, or_comm]

theorem leads_of_refresh {d : ℕ} (hcomp : opts.compositional = false)
    (hphase : m.accessPhase = .refresh) (h : m.timeBlocked = d + 1) :
    Leads (memory opts).cycle m m' ↔
      m' = { m with justRefreshed := none, timeBlocked := 0, accessPhase := .idle } ∨
      d ≠ 0 ∧ m' = { m with justRefreshed := none, timeBlocked := d } := by
  cases d <;> simp [Leads, memory, cycle, assertThat, hphase, h, hcomp]

end Cycles

section Times

/-- A busy memory that is blocked for no time stays so. -/
theorem not_mem_of_zero (hbusy : m.accessPhase ≠ .idle) (h : m.timeBlocked = 0) :
    t ∉ (memory opts).completionTimes forwarded m := by
  apply Timed.not_mem_completionTimes_of_stuck
    fun m : SimpleSDRAMCyclingMemory => m.accessPhase ≠ .idle ∧ m.timeBlocked = 0
  · rintro m ⟨hphase, _⟩
    exact isBusy_iff.mpr hphase
  · rintro m m' ⟨hphase, hzero⟩ hstep
    cases (leads_of_zero hzero).mp hstep
    exact ⟨hphase, hzero⟩
  · exact ⟨hbusy, h⟩

theorem mem_of_idle (hphase : m.accessPhase = .idle) :
    t ∈ (memory opts).completionTimes forwarded m ↔
      m.fastForwardedAccessCycles.lb ≤ t ∧ t ≤ m.fastForwardedAccessCycles.ub :=
  Timed.mem_completionTimes_of_idle fun hbusy => isBusy_iff.mp hbusy hphase

/-- One cycle of a busy memory. -/
theorem mem_of_busy (hphase : m.accessPhase ≠ .idle) :
    t ∈ (memory opts).completionTimes forwarded m ↔ ∃ m', Leads (memory opts).cycle m m' ∧
      ∃ t' ∈ (memory opts).completionTimes forwarded m', t = t' + 1 :=
  Timed.mem_completionTimes_of_busy (isBusy_iff.mpr hphase)

/-- A refresh takes any time up to its latency. -/
theorem mem_of_refresh {d : ℕ} (hcomp : opts.compositional = false)
    (hordered : m.fastForwardedAccessCycles.lb ≤ m.fastForwardedAccessCycles.ub)
    (hphase : m.accessPhase = .refresh) (h : m.timeBlocked = d + 1) :
    t ∈ (memory opts).completionTimes forwarded m ↔
      m.fastForwardedAccessCycles.lb + 1 ≤ t ∧ t ≤ m.fastForwardedAccessCycles.ub + (d + 1) := by
  induction d generalizing m t with
  | zero =>
    rw [mem_of_busy (by simp [hphase])]
    simp only [leads_of_refresh hcomp hphase h, ne_eq, not_true_eq_false, false_and, or_false,
      exists_eq_left, mem_of_idle]
    constructor
    · rintro ⟨t', ht', rfl⟩
      omega
    · intro ht
      exact ⟨t - 1, by omega, by omega⟩
  | succ d ih =>
    rw [mem_of_busy (by simp [hphase])]
    constructor
    · rintro ⟨m', hstep, t', ht', rfl⟩
      rcases (leads_of_refresh hcomp hphase h).mp hstep with rfl | ⟨_, rfl⟩
      · have hidle := (mem_of_idle rfl).mp ht'
        dsimp only at hidle
        omega
      · have hrest := (ih (m := { m with justRefreshed := none, timeBlocked := d + 1 })
          hordered hphase rfl).mp ht'
        dsimp only at hrest
        omega
    · intro ht
      by_cases hfirst : t ≤ m.fastForwardedAccessCycles.ub + 1
      · refine ⟨_, (leads_of_refresh hcomp hphase h).mpr (.inl rfl), t - 1, ?_, by omega⟩
        rw [mem_of_idle rfl]
        dsimp only
        omega
      · refine ⟨_, (leads_of_refresh hcomp hphase h).mpr (.inr ⟨by omega, rfl⟩), t - 1, ?_,
          by omega⟩
        rw [ih (m := { m with justRefreshed := none, timeBlocked := d + 1 }) hordered hphase rfl]
        dsimp only
        omega

/-- The time a refresh may add to an access. -/
def refreshTime (opts : SDRAMOptions) (m : SimpleSDRAMCyclingMemory) : ℕ :=
  if opts.compositional = false ∧ m.hasSeenRefresh = false then opts.dramRefreshLatency else 0

/-- An access takes its time, and possibly that of a refresh. -/
theorem mem_of_access {k : ℕ}
    (hordered : m.fastForwardedAccessCycles.lb ≤ m.fastForwardedAccessCycles.ub)
    (hphase : m.accessPhase = .access) (h : m.timeBlocked = k + 1) :
    t ∈ (memory opts).completionTimes forwarded m ↔
      m.fastForwardedAccessCycles.lb + (k + 1) ≤ t ∧
        t ≤ m.fastForwardedAccessCycles.ub + (k + 1) + refreshTime opts m := by
  induction k generalizing m t with
  | zero =>
    rw [mem_of_busy (by simp [hphase])]
    constructor
    · rintro ⟨m', hstep, t', ht', rfl⟩
      rcases (leads_of_access_end hphase h).mp hstep with rfl | ⟨hcomp, hseen, rfl⟩
      · have hidle := (mem_of_idle rfl).mp ht'
        dsimp only at hidle
        omega
      · rw [refreshTime, if_pos ⟨hcomp, hseen⟩]
        cases hlatency : opts.dramRefreshLatency with
        | zero => exact absurd ht' (not_mem_of_zero (by simp) hlatency)
        | succ d =>
          have hrest := (mem_of_refresh (m := { m with
              accessPhase := .refresh
              timeBlocked := opts.dramRefreshLatency
              justRefreshed := some .getUnknownAddress }) hcomp hordered rfl hlatency).mp ht'
          dsimp only at hrest
          omega
    · intro ht
      by_cases hfirst : t ≤ m.fastForwardedAccessCycles.ub + 1
      · refine ⟨_, (leads_of_access_end hphase h).mpr (.inl rfl), t - 1, ?_, by omega⟩
        rw [mem_of_idle rfl]
        dsimp only
        omega
      · rw [refreshTime] at ht
        split_ifs at ht with hrefresh
        · obtain ⟨hcomp, hseen⟩ := hrefresh
          refine ⟨_, (leads_of_access_end hphase h).mpr (.inr ⟨hcomp, hseen, rfl⟩), t - 1, ?_,
            by omega⟩
          cases hlatency : opts.dramRefreshLatency with
          | zero => omega
          | succ d =>
            rw [mem_of_refresh (m := { m with
              accessPhase := .refresh
              timeBlocked := d + 1
              justRefreshed := some .getUnknownAddress }) hcomp hordered rfl rfl]
            dsimp only
            omega
        · omega
  | succ k ih =>
    rw [mem_of_busy (by simp [hphase])]
    constructor
    · rintro ⟨m', hstep, t', ht', rfl⟩
      cases (leads_of_access hphase h).mp hstep
      have hrest := (ih (m := { m with justRefreshed := none, timeBlocked := k + 1 })
        hordered hphase rfl).mp ht'
      dsimp only [refreshTime] at hrest ⊢
      omega
    · intro ht
      refine ⟨_, (leads_of_access hphase h).mpr rfl, t - 1, ?_, by omega⟩
      rw [ih (m := { m with justRefreshed := none, timeBlocked := k + 1 }) hordered hphase rfl]
      dsimp only [refreshTime] at ht ⊢
      omega

end Times

section Forwarding

/-- The access without a refresh, at its last cycle. -/
def forwardedAccess (opts : SDRAMOptions) (m : SimpleSDRAMCyclingMemory) (k : ℕ) :
    SimpleSDRAMCyclingMemory :=
  { m with
    fastForwardedAccessCycles := m.fastForwardedAccessCycles.add (.ofValue k)
    timeBlocked := 1
    hasSeenRefresh := m.hasSeenRefresh || !opts.compositional }

/-- The access at its last cycle, the refresh being counted. -/
def forwardedRefreshing (opts : SDRAMOptions) (m : SimpleSDRAMCyclingMemory) (k : ℕ) :
    SimpleSDRAMCyclingMemory :=
  { m with
    fastForwardedAccessCycles :=
      m.fastForwardedAccessCycles.add ⟨k, toUnsigned (k + opts.dramRefreshLatency)⟩
    justRefreshed := some .getUnknownAddress
    timeBlocked := 1
    hasSeenRefresh := true }

/-- The refresh at its last cycle. -/
def forwardedRefresh (m : SimpleSDRAMCyclingMemory) (d : ℕ) : SimpleSDRAMCyclingMemory :=
  { m with
    fastForwardedAccessCycles := m.fastForwardedAccessCycles.add ⟨0, d⟩
    timeBlocked := 1 }

theorem not_leads_fastForward_of_zero (h : m.timeBlocked = 0) :
    ¬ Leads (memory opts).fastForward m m' := by
  cases hphase : m.accessPhase <;> cases hevent : m.justRefreshed <;>
    simp [Leads, memory, fastForward, assertThat, isBusy, hphase, h, hevent]

theorem leads_fastForward_of_access {k : ℕ} (hphase : m.accessPhase = .access)
    (h : m.timeBlocked = k + 1) (hevent : m.justRefreshed = none) :
    Leads (memory opts).fastForward m m' ↔ m' = forwardedAccess opts m k ∨
      opts.compositional = false ∧ m' = forwardedRefreshing opts m k := by
  cases hcomp : opts.compositional <;>
    simp [Leads, memory, fastForward, assertThat, isBusy, forwardedAccess, forwardedRefreshing,
      hphase, h, hevent, hcomp, or_comm]

theorem leads_fastForward_of_refresh {d : ℕ} (hphase : m.accessPhase = .refresh)
    (h : m.timeBlocked = d + 1) :
    Leads (memory opts).fastForward m m' ↔ m' = forwardedRefresh m d := by
  simp [Leads, memory, fastForward, assertThat, isBusy, forwardedRefresh, hphase, h]

theorem isBusy_of_leads_fastForward (h : Leads (memory opts).fastForward m m') :
    m.accessPhase ≠ .idle := by
  intro hphase
  simp [Leads, memory, fastForward, assertThat, isBusy, hphase] at h

theorem accessPhase_of_leads_fastForward (h : Leads (memory opts).fastForward m m') :
    m'.accessPhase = m.accessPhase := by
  cases htime : m.timeBlocked with
  | zero => exact absurd h (not_leads_fastForward_of_zero htime)
  | succ k =>
    cases hphase : m.accessPhase with
    | idle => exact absurd hphase (isBusy_of_leads_fastForward h)
    | refresh =>
      cases (leads_fastForward_of_refresh hphase htime).mp h
      exact hphase
    | access =>
      cases hevent : m.justRefreshed with
      | some addr => simp [Leads, memory, fastForward, assertThat, isBusy, hphase, hevent] at h
      | none =>
        rcases (leads_fastForward_of_access hphase htime hevent).mp h with rfl | ⟨_, rfl⟩
        · exact hphase
        · exact hphase

end Forwarding

section Invariant

theorem Inv.new : Inv opts new := by
  constructor <;> simp [SimpleSDRAMCyclingMemory.new, IntervalCounter.ofValue]

theorem Inv.announceAccess {addr : AbstractAddress} {ty : AccessType} {numWords : ℕ}
    (h : Inv opts m) (hm' : Leads ((memory opts).announceAccess · addr ty numWords) m m') :
    Inv opts m' := by
  obtain ⟨_, hannounce, hmem⟩ := hm'
  obtain ⟨_, hidle, hannounce⟩ := bind_eq_ok.mp hannounce
  obtain ⟨_, _, hannounce⟩ := bind_eq_ok.mp hannounce
  obtain ⟨_, _, hannounce⟩ := bind_eq_ok.mp hannounce
  cases hannounce
  cases List.mem_singleton.mp hmem
  have hphase : m.accessPhase = .idle := by simpa [isBusy] using of_assertThat hidle
  have hevent := h.noEvent (by simp [hphase])
  exact ⟨h.ordered, h.unseen, fun hne => (nomatch hne), fun hne => (nomatch hne), fun _ => hevent⟩

theorem Inv.cycle (h : Inv opts m) (hm' : Leads (memory opts).cycle m m') : Inv opts m' := by
  cases htime : m.timeBlocked with
  | zero =>
    cases (leads_of_zero htime).mp hm'
    exact ⟨h.ordered, h.unseen, h.idle, h.refresh, fun _ => rfl⟩
  | succ k =>
    cases hphase : m.accessPhase with
    | idle =>
      rw [h.idle hphase] at htime
      cases htime
    | refresh =>
      rcases (leads_of_refresh (h.refresh hphase) hphase htime).mp hm' with rfl | ⟨_, rfl⟩
      · exact ⟨h.ordered, h.unseen, fun _ => rfl, fun hne => (nomatch hne), fun _ => rfl⟩
      · refine ⟨h.ordered, h.unseen, fun hidle => ?_, h.refresh, fun _ => rfl⟩
        rw [hphase] at hidle
        cases hidle
    | access =>
      cases k with
      | zero =>
        rcases (leads_of_access_end hphase htime).mp hm' with rfl | ⟨hcomp, hseen, rfl⟩
        · exact ⟨h.ordered, rfl, fun _ => rfl, fun hne => (nomatch hne), fun _ => rfl⟩
        · exact ⟨h.ordered, hseen, fun hne => (nomatch hne), fun _ => hcomp, fun hne => absurd rfl hne⟩
      | succ k =>
        cases (leads_of_access hphase htime).mp hm'
        refine ⟨h.ordered, h.unseen, fun hidle => ?_, fun hrefresh => ?_, fun _ => rfl⟩
        · rw [hphase] at hidle
          cases hidle
        · rw [hphase] at hrefresh
          cases hrefresh

/-- The cycle after a fast-forward completes the access. -/
theorem idle_after_fastForward {m'' : SimpleSDRAMCyclingMemory} (h : Inv opts m)
    (hm' : Leads (memory opts).fastForward m m') (hm'' : Leads (memory opts).cycle m' m'') :
    m'' = { m' with
      justRefreshed := none, timeBlocked := 0, accessPhase := .idle, hasSeenRefresh := false } := by
  have hbusy := isBusy_of_leads_fastForward hm'
  cases htime : m.timeBlocked with
  | zero => exact absurd hm' (not_leads_fastForward_of_zero htime)
  | succ k =>
    cases hphase : m.accessPhase with
    | idle => exact absurd hphase hbusy
    | refresh =>
      cases (leads_fastForward_of_refresh hphase htime).mp hm'
      rcases (leads_of_refresh (m := forwardedRefresh m k) (h.refresh hphase) hphase rfl).mp hm''
        with rfl | ⟨hzero, _⟩
      · simp [forwardedRefresh, h.unseen]
      · exact absurd rfl hzero
    | access =>
      have hevent := h.noEvent (by simp [hphase])
      rcases (leads_fastForward_of_access hphase htime hevent).mp hm' with rfl | ⟨_, rfl⟩
      · rcases (leads_of_access_end (m := forwardedAccess opts m k) hphase rfl).mp hm''
          with rfl | ⟨hcomp, hseen, _⟩
        · rfl
        · simp [forwardedAccess, hcomp] at hseen
      · rcases (leads_of_access_end (m := forwardedRefreshing opts m k) hphase rfl).mp hm''
          with rfl | ⟨_, hseen, _⟩
        · rfl
        · cases hseen

theorem Inv.fastForward {m'' : SimpleSDRAMCyclingMemory} (h : Inv opts m)
    (hoverflow : NoOverflow opts m) (hm' : Leads (memory opts).fastForward m m')
    (hm'' : Leads (memory opts).cycle m' m'') : Inv opts m'' := by
  rw [idle_after_fastForward h hm' hm'']
  refine ⟨?_, rfl, fun _ => rfl, fun hne => (nomatch hne), fun _ => rfl⟩
  have hordered := h.ordered
  have hbusy := isBusy_of_leads_fastForward hm'
  unfold NoOverflow at hoverflow
  cases htime : m.timeBlocked with
  | zero => exact absurd hm' (not_leads_fastForward_of_zero htime)
  | succ k =>
    rw [htime] at hoverflow
    cases hphase : m.accessPhase with
    | idle => exact absurd hphase hbusy
    | refresh =>
      cases (leads_fastForward_of_refresh hphase htime).mp hm'
      exact IntervalCounter.add_ordered hordered (Nat.zero_le k) (by dsimp only; omega)
    | access =>
      have hevent := h.noEvent (by simp [hphase])
      rcases (leads_fastForward_of_access hphase htime hevent).mp hm' with rfl | ⟨hcomp, rfl⟩
      · exact IntervalCounter.add_ordered hordered le_rfl
          (by dsimp only [IntervalCounter.ofValue]; omega)
      · rw [if_pos ⟨hphase, hcomp⟩] at hoverflow
        dsimp only [forwardedRefreshing]
        rw [toUnsigned_of_lt (by omega)]
        exact IntervalCounter.add_ordered hordered (Nat.le_add_right _ _) (by dsimp only; omega)

/-- The invariant holds in every run without an overflow. -/
theorem inv_of_reachable (h : (memory opts).Reachable (NoOverflow opts) m) : Inv opts m := by
  induction h with
  | new => exact Inv.new
  | announceAccess _ hm' ih => exact ih.announceAccess hm'
  | cycle _ hm' ih => exact ih.cycle hm'
  | fastForward _ hoverflow hm' hm'' ih => exact ih.fastForward hoverflow hm' hm''

end Invariant

/-- One fast-forward, then cycling, takes just as long as cycling. -/
theorem forwardsExactly (h : Inv opts m) (hoverflow : NoOverflow opts m)
    (hbusy : m.accessPhase ≠ .idle) : (memory opts).ForwardsExactly forwarded m := by
  intro t
  have hordered := h.ordered
  unfold NoOverflow at hoverflow
  cases htime : m.timeBlocked with
  | zero =>
    constructor
    · rintro ⟨m', hm', _⟩
      exact absurd hm' (not_leads_fastForward_of_zero htime)
    · intro ht
      exact absurd ht (not_mem_of_zero hbusy htime)
  | succ k =>
    rw [htime] at hoverflow
    cases hphase : m.accessPhase with
    | idle => exact absurd hphase hbusy
    | refresh =>
      have hord : (forwardedRefresh m k).fastForwardedAccessCycles.lb ≤
          (forwardedRefresh m k).fastForwardedAccessCycles.ub :=
        IntervalCounter.add_ordered hordered (Nat.zero_le k) (by dsimp only; omega)
      simp only [leads_fastForward_of_refresh hphase htime, exists_eq_left]
      rw [mem_of_refresh (h.refresh hphase) hordered hphase htime,
        mem_of_refresh (m := forwardedRefresh m k) (h.refresh hphase) hord hphase rfl]
      dsimp only [forwardedRefresh, IntervalCounter.add]
      rw [toUnsigned_of_lt (by omega), toUnsigned_of_lt (by omega)]
      omega
    | access =>
      have hevent := h.noEvent (by simp [hphase])
      have hord : (forwardedAccess opts m k).fastForwardedAccessCycles.lb ≤
          (forwardedAccess opts m k).fastForwardedAccessCycles.ub :=
        IntervalCounter.add_ordered hordered le_rfl
          (by dsimp only [IntervalCounter.ofValue]; omega)
      have htimes : t ∈ (memory opts).completionTimes forwarded (forwardedAccess opts m k) ↔
          m.fastForwardedAccessCycles.lb + k + 1 ≤ t ∧
            t ≤ m.fastForwardedAccessCycles.ub + k + 1 := by
        have hnone : refreshTime opts (forwardedAccess opts m k) = 0 := by
          rw [refreshTime, if_neg]
          rintro ⟨hcomp, hseen⟩
          simp [forwardedAccess, hcomp] at hseen
        rw [mem_of_access (m := forwardedAccess opts m k) hord hphase rfl, hnone]
        dsimp only [forwardedAccess, IntervalCounter.add, IntervalCounter.ofValue]
        rw [toUnsigned_of_lt (by omega), toUnsigned_of_lt (by omega)]
      simp only [leads_fastForward_of_access hphase htime hevent, or_and_right, exists_or,
        exists_eq_left, htimes]
      rw [mem_of_access hordered hphase htime]
      cases hcomp : opts.compositional with
      | true =>
        simp [refreshTime, hcomp]
        omega
      | false =>
        rw [if_pos ⟨hphase, hcomp⟩] at hoverflow
        have hord' : (forwardedRefreshing opts m k).fastForwardedAccessCycles.lb ≤
            (forwardedRefreshing opts m k).fastForwardedAccessCycles.ub := by
          dsimp only [forwardedRefreshing]
          rw [toUnsigned_of_lt (by omega)]
          exact IntervalCounter.add_ordered hordered (Nat.le_add_right _ _) (by dsimp only; omega)
        simp only [true_and, exists_eq_left]
        rw [mem_of_access (m := forwardedRefreshing opts m k) hord' hphase rfl]
        simp only [refreshTime, forwardedRefreshing, hcomp, h.unseen, and_self, if_true,
          IntervalCounter.add, Bool.true_eq_false, and_false, if_false]
        have hsum : toUnsigned (k + opts.dramRefreshLatency) = k + opts.dramRefreshLatency :=
          toUnsigned_of_lt (by omega)
        rw [hsum, toUnsigned_of_lt (by omega), toUnsigned_of_lt (by omega)]
        omega

end SimpleSDRAMCyclingMemory

end Llvmta
