import Llvmta.Library.CheckedFold
import Llvmta.PathAnalysis.FlowConstraintProvider

/-!
# The selection of loop bounds

The bound of a loop in a context is computed automatically, or given manually for the
context or for all contexts. The empty context stands for all recorded contexts of the
loop. Upper and lower bounds are selected by the same code.
-/

namespace Llvmta

open Checked

/-- The bounds of loops for contexts. -/
abbrev CtxLoopBounds := MachineLoop → Option (Context → Option (BitVec 32))

/-- The sources of upper bounds, or those of lower bounds. -/
structure LoopBoundSources where
  LoopBounds : CtxLoopBounds
  ManualLoopBounds : CtxLoopBounds
  ManualLoopBoundsNoCtx : MachineLoop → Option (BitVec 32)

structure LoopBoundInfoPass where
  getAllLoops : List MachineLoop
  /-- the contexts recorded for a loop, in the order of an unordered set -/
  LoopContextMap : MachineLoop → Option (List Context)
  upper : LoopBoundSources
  lower : LoopBoundSources

def Context.isEmpty (Ctx : Context) : Bool := Ctx.getTokenList.isEmpty

/-- `std::max` of unsigned numbers. -/
def maxUnsigned (a b : BitVec 32) : BitVec 32 := if a < b then b else a

namespace LoopBoundSources

variable (sources : LoopBoundSources)

/-- The entry for a context, if the loop and the context have one. -/
def find (bounds : CtxLoopBounds) (Loop : MachineLoop) (Ctx : Context) : Option (BitVec 32) :=
  match bounds Loop with
  | some CtxBounds => CtxBounds Ctx
  | none => none

def hasLoopBound (Loop : MachineLoop) (Ctx : Context) : Bool :=
  let HasBound := (find sources.LoopBounds Loop Ctx).isSome
  let HasBound := if !HasBound then (find sources.ManualLoopBounds Loop Ctx).isSome else HasBound
  if !HasBound then (sources.ManualLoopBoundsNoCtx Loop).isSome else HasBound

/-- The bound with the flag for a manual one that is not for the context. -/
def getLoopBound (Loop : MachineLoop) (Ctx : Context) : Except Fault (BitVec 32) := do
  assertThat (sources.hasLoopBound Loop Ctx) "We do not have a loop bound, check before"
  assertThat (!Ctx.isEmpty) "Don't pass an empty context to getLoopBound"
  let (Bound, FoundBoundManual) :=
    match sources.ManualLoopBoundsNoCtx Loop with
    | some Bound => (some Bound, true)
    | none => (none, false)
  let Bound :=
    match find sources.ManualLoopBounds Loop Ctx with
    | some ManualBoundVal => some ManualBoundVal
    | none => Bound
  let Bound :=
    match find sources.LoopBounds Loop Ctx with
    | some AutoBound =>
      if FoundBoundManual && decide (some AutoBound ≠ Bound) then Bound else some AutoBound
    | none => Bound
  match Bound with
  | some Bound => .ok Bound
  | none => .error (.assertion "read of the uninitialised bound")

/-- The manual bound, that for the context before that for all contexts. -/
def manual (Loop : MachineLoop) (Ctx : Context) : Option (BitVec 32) :=
  (find sources.ManualLoopBounds Loop Ctx).or (sources.ManualLoopBoundsNoCtx Loop)

/-- The bound with a manual one before an automatic one. -/
def preferred (Loop : MachineLoop) (Ctx : Context) : Option (BitVec 32) :=
  (sources.manual Loop Ctx).or (find sources.LoopBounds Loop Ctx)

/-- An automatic bound stands behind a manual one that is for the context only. -/
def Overridden (Loop : MachineLoop) (Ctx : Context) : Prop :=
  ∃ manualBound autoBound, find sources.ManualLoopBounds Loop Ctx = some manualBound ∧
    sources.ManualLoopBoundsNoCtx Loop = none ∧
    find sources.LoopBounds Loop Ctx = some autoBound ∧ autoBound ≠ manualBound

variable {sources} {Loop : MachineLoop} {Ctx : Context} {Bound : BitVec 32}

theorem hasLoopBound_iff :
    sources.hasLoopBound Loop Ctx = true ↔ ∃ Bound, sources.preferred Loop Ctx = some Bound := by
  unfold hasLoopBound preferred manual
  cases find sources.LoopBounds Loop Ctx <;> cases find sources.ManualLoopBounds Loop Ctx <;>
    cases sources.ManualLoopBoundsNoCtx Loop <;> simp

/-- Except for a manual bound that is for the context only, the preferred bound is selected. -/
theorem getLoopBound_eq (hempty : Ctx.isEmpty = false) :
    sources.getLoopBound Loop Ctx =
      match sources.preferred Loop Ctx with
      | none => .error (.assertion "We do not have a loop bound, check before")
      | some Bound =>
        match sources.ManualLoopBoundsNoCtx Loop with
        | some _ => .ok Bound
        | none => .ok ((find sources.LoopBounds Loop Ctx).getD Bound) := by
  unfold getLoopBound hasLoopBound preferred manual
  rw [hempty]
  cases find sources.LoopBounds Loop Ctx with
  | none =>
    cases find sources.ManualLoopBounds Loop Ctx <;>
      cases sources.ManualLoopBoundsNoCtx Loop <;> rfl
  | some AutoBound =>
    cases find sources.ManualLoopBounds Loop Ctx with
    | none =>
      cases sources.ManualLoopBoundsNoCtx Loop with
      | none => rfl
      | some Bound => by_cases h : AutoBound = Bound <;> simp [h]
    | some ManualBoundVal =>
      cases sources.ManualLoopBoundsNoCtx Loop with
      | none => rfl
      | some Bound => by_cases h : AutoBound = ManualBoundVal <;> simp [h]

theorem not_isEmpty_of_getLoopBound (h : sources.getLoopBound Loop Ctx = .ok Bound) :
    Ctx.isEmpty = false := by
  unfold getLoopBound at h
  obtain ⟨_, -, h⟩ := bind_eq_ok.mp h
  obtain ⟨_, hempty, -⟩ := bind_eq_ok.mp h
  simpa using of_assertThat hempty

/-- A bound is there for every context that has one. -/
theorem exists_getLoopBound_iff (hempty : Ctx.isEmpty = false) :
    (∃ Bound, sources.getLoopBound Loop Ctx = .ok Bound) ↔
      sources.hasLoopBound Loop Ctx = true := by
  rw [getLoopBound_eq hempty, hasLoopBound_iff]
  cases sources.preferred Loop Ctx with
  | none => simp
  | some Bound => cases sources.ManualLoopBoundsNoCtx Loop <;> simp

/-- A manual bound is selected unless it is overridden by an automatic one. -/
theorem getLoopBound_manual_iff (hempty : Ctx.isEmpty = false) :
    (∀ Bound manualBound, sources.getLoopBound Loop Ctx = .ok Bound →
        sources.manual Loop Ctx = some manualBound → Bound = manualBound) ↔
      ¬sources.Overridden Loop Ctx := by
  rw [getLoopBound_eq hempty]
  unfold preferred manual Overridden
  cases find sources.LoopBounds Loop Ctx <;> cases find sources.ManualLoopBounds Loop Ctx <;>
    cases sources.ManualLoopBoundsNoCtx Loop <;> simp

theorem getLoopBound_eq_preferred (hoverridden : ¬sources.Overridden Loop Ctx)
    (h : sources.preferred Loop Ctx = some Bound) (hempty : Ctx.isEmpty = false) :
    sources.getLoopBound Loop Ctx = .ok Bound := by
  rw [getLoopBound_eq hempty, h]
  revert h hoverridden
  unfold preferred manual Overridden
  cases find sources.LoopBounds Loop Ctx <;> cases find sources.ManualLoopBounds Loop Ctx <;>
    cases sources.ManualLoopBoundsNoCtx Loop <;> simp +contextual

end LoopBoundSources

namespace LoopBoundInfoPass

variable (pass : LoopBoundInfoPass)

section Selection

/-- Whether each recorded context has a bound. -/
def hasLoopBoundNoCtx (sources : LoopBoundSources) (Loop : MachineLoop) : Bool :=
  match pass.LoopContextMap Loop with
  | none => false
  | some contexts => contexts.all (sources.hasLoopBound Loop)

def hasUpperLoopBound (Loop : MachineLoop) (Ctx : Context) : Bool :=
  if Ctx.isEmpty then pass.hasLoopBoundNoCtx pass.upper Loop else pass.upper.hasLoopBound Loop Ctx

def hasLowerLoopBound (Loop : MachineLoop) (Ctx : Context) : Bool :=
  if Ctx.isEmpty then pass.hasLoopBoundNoCtx pass.lower Loop else pass.lower.hasLoopBound Loop Ctx

/-- The greatest bound of the recorded contexts. -/
def getLoopBoundNoCtx (sources : LoopBoundSources) (Loop : MachineLoop) :
    Except Fault (BitVec 32) :=
  match pass.LoopContextMap Loop with
  | none => .error .outOfBounds
  | some contexts =>
    contexts.foldlM (fun MaxBound Ctx => do
      let Bound ← sources.getLoopBound Loop Ctx
      .ok (maxUnsigned MaxBound Bound)) 0

def getUpperLoopBound (Loop : MachineLoop) (Ctx : Context) : Except Fault (BitVec 32) :=
  if Ctx.isEmpty then pass.getLoopBoundNoCtx pass.upper Loop else pass.upper.getLoopBound Loop Ctx

def getLowerLoopBound (Loop : MachineLoop) (Ctx : Context) : Except Fault (BitVec 32) :=
  if Ctx.isEmpty then pass.getLoopBoundNoCtx pass.lower Loop else pass.lower.getLoopBound Loop Ctx

/-- What the flow constraints are built with: a bound is asked for if there is one. -/
def toLoopBoundInfo : LoopBoundInfo where
  getAllLoops := pass.getAllLoops
  getUpperLoopBound Loop Ctx :=
    if pass.hasUpperLoopBound Loop Ctx then (pass.getUpperLoopBound Loop Ctx).toOption else none
  getLowerLoopBound Loop Ctx :=
    if pass.hasLowerLoopBound Loop Ctx then (pass.getLowerLoopBound Loop Ctx).toOption else none

end Selection

section Aggregation

variable {pass} {sources : LoopBoundSources} {Loop : MachineLoop} {contexts : List Context}

theorem le_maxUnsigned_left (a b : BitVec 32) : a ≤ maxUnsigned a b := by
  unfold maxUnsigned
  split_ifs with h
  · exact BitVec.le_of_lt h
  · exact BitVec.le_refl a

theorem le_maxUnsigned_right (a b : BitVec 32) : b ≤ maxUnsigned a b := by
  unfold maxUnsigned
  split_ifs with h
  · exact BitVec.le_refl b
  · exact BitVec.not_lt.mp h

/-- The greatest bound is that of a context, and not less than that of any. -/
theorem foldlM_max {first MaxBound : BitVec 32}
    (h : contexts.foldlM (fun MaxBound Ctx => do
      let Bound ← sources.getLoopBound Loop Ctx
      .ok (maxUnsigned MaxBound Bound)) first = .ok MaxBound) :
    (first ≤ MaxBound ∧ ∀ Ctx ∈ contexts, ∃ Bound, sources.getLoopBound Loop Ctx = .ok Bound ∧
        Bound ≤ MaxBound) ∧
      (MaxBound = first ∨ ∃ Ctx ∈ contexts, sources.getLoopBound Loop Ctx = .ok MaxBound) := by
  induction contexts generalizing first with
  | nil =>
    cases h
    exact ⟨⟨BitVec.le_refl _, by simp⟩, .inl rfl⟩
  | cons Ctx contexts ih =>
    rw [List.foldlM_cons] at h
    obtain ⟨next, hnext, h⟩ := bind_eq_ok.mp h
    obtain ⟨Bound, hBound, hmax⟩ := bind_eq_ok.mp hnext
    cases hmax
    obtain ⟨⟨hle, hall⟩, hattained⟩ := ih h
    refine ⟨⟨BitVec.le_trans (le_maxUnsigned_left _ _) hle, ?_⟩, ?_⟩
    · intro Ctx' hCtx'
      rcases List.mem_cons.mp hCtx' with rfl | hCtx'
      · exact ⟨Bound, hBound, BitVec.le_trans (le_maxUnsigned_right _ _) hle⟩
      · exact hall Ctx' hCtx'
    · rcases hattained with rfl | ⟨Ctx', hCtx', hBound'⟩
      · unfold maxUnsigned
        split_ifs
        · exact .inr ⟨Ctx, by simp, hBound⟩
        · exact .inl rfl
      · exact .inr ⟨Ctx', List.mem_cons_of_mem _ hCtx', hBound'⟩

/-- The loop returns if each context has a bound. -/
theorem exists_foldlM_max (first : BitVec 32)
    (h : ∀ Ctx ∈ contexts, ∃ Bound, sources.getLoopBound Loop Ctx = .ok Bound) :
    ∃ MaxBound, contexts.foldlM (fun MaxBound Ctx => do
      let Bound ← sources.getLoopBound Loop Ctx
      .ok (maxUnsigned MaxBound Bound)) first = .ok MaxBound := by
  induction contexts generalizing first with
  | nil => exact ⟨first, rfl⟩
  | cons Ctx contexts ih =>
    obtain ⟨Bound, hBound⟩ := h Ctx (by simp)
    rw [List.foldlM_cons, hBound]
    exact ih _ fun Ctx' hCtx' => h Ctx' (List.mem_cons_of_mem _ hCtx')

end Aggregation

section Soundness

variable {Loop : MachineLoop}

/-- The empty context stands for all recorded contexts, and manual bounds come first. -/
structure SoundFor (Loop : MachineLoop) : Prop where
  upper : ∀ contexts, pass.LoopContextMap Loop = some contexts → ∀ Ctx ∈ contexts,
    ∀ emptyBound bound, pass.getUpperLoopBound Loop ⟨[]⟩ = .ok emptyBound →
      pass.getUpperLoopBound Loop Ctx = .ok bound → bound ≤ emptyBound
  lower : ∀ contexts, pass.LoopContextMap Loop = some contexts → ∀ Ctx ∈ contexts,
    ∀ emptyBound bound, pass.getLowerLoopBound Loop ⟨[]⟩ = .ok emptyBound →
      pass.getLowerLoopBound Loop Ctx = .ok bound → emptyBound ≤ bound
  upper_manual : ∀ Ctx, Ctx.isEmpty = false → ∀ bound manualBound,
    pass.getUpperLoopBound Loop Ctx = .ok bound →
      pass.upper.manual Loop Ctx = some manualBound → bound = manualBound
  lower_manual : ∀ Ctx, Ctx.isEmpty = false → ∀ bound manualBound,
    pass.getLowerLoopBound Loop Ctx = .ok bound →
      pass.lower.manual Loop Ctx = some manualBound → bound = manualBound

/-- If all recorded contexts have a bound, it is the same. -/
def UniformLower (Loop : MachineLoop) : Prop :=
  ∀ contexts, pass.LoopContextMap Loop = some contexts →
    (∀ Ctx ∈ contexts, Ctx.isEmpty = false ∧ ∃ b, pass.lower.preferred Loop Ctx = some b) →
      ∀ Ctx ∈ contexts, ∀ Ctx' ∈ contexts,
        pass.lower.preferred Loop Ctx = pass.lower.preferred Loop Ctx'

variable {pass}

theorem upper_le_empty {contexts : List Context}
    (hcontexts : pass.LoopContextMap Loop = some contexts) {Ctx : Context}
    (hCtx : Ctx ∈ contexts) {emptyBound bound : BitVec 32}
    (hempty : pass.getUpperLoopBound Loop ⟨[]⟩ = .ok emptyBound)
    (hbound : pass.getUpperLoopBound Loop Ctx = .ok bound) : bound ≤ emptyBound := by
  change pass.getLoopBoundNoCtx pass.upper Loop = _ at hempty
  unfold getLoopBoundNoCtx at hempty
  rw [hcontexts] at hempty
  obtain ⟨⟨-, hall⟩, -⟩ := foldlM_max hempty
  obtain ⟨b, hb, hle⟩ := hall Ctx hCtx
  unfold getUpperLoopBound at hbound
  rw [LoopBoundSources.not_isEmpty_of_getLoopBound hb, hb] at hbound
  cases hbound
  exact hle

/-- The greatest lower bound of the contexts is the least one only if they agree. -/
theorem lower_iff (hoverridden : ∀ Ctx, Ctx.isEmpty = false → ¬pass.lower.Overridden Loop Ctx) :
    (∀ contexts, pass.LoopContextMap Loop = some contexts → ∀ Ctx ∈ contexts,
      ∀ emptyBound bound, pass.getLowerLoopBound Loop ⟨[]⟩ = .ok emptyBound →
        pass.getLowerLoopBound Loop Ctx = .ok bound → emptyBound ≤ bound) ↔
      pass.UniformLower Loop := by
  have hpreferred : ∀ Ctx b, Ctx.isEmpty = false → pass.lower.preferred Loop Ctx = some b →
      pass.lower.getLoopBound Loop Ctx = .ok b := fun Ctx b hempty h =>
    LoopBoundSources.getLoopBound_eq_preferred (hoverridden Ctx hempty) h hempty
  have hlower : ∀ Ctx, Ctx.isEmpty = false →
      pass.getLowerLoopBound Loop Ctx = pass.lower.getLoopBound Loop Ctx := by
    intro Ctx hempty
    unfold getLowerLoopBound
    rw [hempty]
    rfl
  constructor
  · intro h contexts hcontexts hbounds
    have hok : ∀ Ctx ∈ contexts, ∃ b, pass.lower.getLoopBound Loop Ctx = .ok b := fun Ctx hCtx =>
      have ⟨hempty, b, hb⟩ := hbounds Ctx hCtx
      ⟨b, hpreferred Ctx b hempty hb⟩
    obtain ⟨MaxBound, hmax⟩ := exists_foldlM_max 0 hok
    have hemptyBound : pass.getLowerLoopBound Loop ⟨[]⟩ = .ok MaxBound := by
      change pass.getLoopBoundNoCtx pass.lower Loop = _
      unfold getLoopBoundNoCtx
      rw [hcontexts]
      exact hmax
    have heq : ∀ Ctx ∈ contexts, pass.lower.preferred Loop Ctx = some MaxBound := by
      intro Ctx hCtx
      obtain ⟨hempty, b, hb⟩ := hbounds Ctx hCtx
      have hget := hpreferred Ctx b hempty hb
      obtain ⟨b', hb', hle⟩ := (foldlM_max hmax).1.2 Ctx hCtx
      rw [hget] at hb'
      cases hb'
      have hge := h contexts hcontexts Ctx hCtx MaxBound b hemptyBound
        ((hlower Ctx hempty).trans hget)
      rw [hb, BitVec.le_antisymm hle hge]
    intro Ctx hCtx Ctx' hCtx'
    rw [heq Ctx hCtx, heq Ctx' hCtx']
  · intro h contexts hcontexts Ctx hCtx emptyBound bound hemptyBound hbound
    change pass.getLoopBoundNoCtx pass.lower Loop = _ at hemptyBound
    unfold getLoopBoundNoCtx at hemptyBound
    rw [hcontexts] at hemptyBound
    obtain ⟨⟨-, hall⟩, hattained⟩ := foldlM_max hemptyBound
    have hnonempty : ∀ Ctx ∈ contexts, Ctx.isEmpty = false := fun Ctx hCtx =>
      have ⟨_, hb, _⟩ := hall Ctx hCtx
      LoopBoundSources.not_isEmpty_of_getLoopBound hb
    have hbounds : ∀ Ctx ∈ contexts,
        Ctx.isEmpty = false ∧ ∃ b, pass.lower.preferred Loop Ctx = some b := by
      intro Ctx hCtx
      obtain ⟨b, hb, -⟩ := hall Ctx hCtx
      refine ⟨hnonempty Ctx hCtx, LoopBoundSources.hasLoopBound_iff.mp ?_⟩
      unfold LoopBoundSources.getLoopBound at hb
      obtain ⟨_, hhas, -⟩ := bind_eq_ok.mp hb
      exact of_assertThat hhas
    rw [hlower Ctx (hnonempty Ctx hCtx)] at hbound
    rcases hattained with rfl | ⟨Ctx', hCtx', hget'⟩
    · exact Nat.zero_le _
    · obtain ⟨-, b, hb⟩ := hbounds Ctx hCtx
      have hsame := h contexts hcontexts hbounds Ctx hCtx Ctx' hCtx'
      have hget := hpreferred Ctx b (hnonempty Ctx hCtx) hb
      rw [hpreferred Ctx' b (hnonempty Ctx' hCtx') (hsame.symm.trans hb)] at hget'
      rw [hget] at hbound
      cases hget'
      cases hbound
      exact BitVec.le_refl _

/-- When the selected bounds are sound. -/
theorem soundFor_iff (pass : LoopBoundInfoPass) (Loop : MachineLoop) :
    pass.SoundFor Loop ↔
      (∀ Ctx, Ctx.isEmpty = false →
        ¬pass.upper.Overridden Loop Ctx ∧ ¬pass.lower.Overridden Loop Ctx) ∧
      pass.UniformLower Loop := by
  have hupper : ∀ Ctx, Ctx.isEmpty = false →
      pass.getUpperLoopBound Loop Ctx = pass.upper.getLoopBound Loop Ctx := by
    intro Ctx hempty
    unfold getUpperLoopBound
    rw [hempty]
    rfl
  have hlower : ∀ Ctx, Ctx.isEmpty = false →
      pass.getLowerLoopBound Loop Ctx = pass.lower.getLoopBound Loop Ctx := by
    intro Ctx hempty
    unfold getLowerLoopBound
    rw [hempty]
    rfl
  constructor
  · intro h
    have hoverridden : ∀ Ctx, Ctx.isEmpty = false →
        ¬pass.upper.Overridden Loop Ctx ∧ ¬pass.lower.Overridden Loop Ctx := by
      intro Ctx hempty
      constructor
      · apply (LoopBoundSources.getLoopBound_manual_iff hempty).mp
        intro b m hb
        exact h.upper_manual Ctx hempty b m ((hupper Ctx hempty).trans hb)
      · apply (LoopBoundSources.getLoopBound_manual_iff hempty).mp
        intro b m hb
        exact h.lower_manual Ctx hempty b m ((hlower Ctx hempty).trans hb)
    exact ⟨hoverridden, (lower_iff fun Ctx hempty => (hoverridden Ctx hempty).2).mp h.lower⟩
  · rintro ⟨hoverridden, huniform⟩
    constructor
    · intro contexts hcontexts Ctx hCtx emptyBound bound
      exact upper_le_empty hcontexts hCtx
    · exact (lower_iff fun Ctx hempty => (hoverridden Ctx hempty).2).mpr huniform
    · intro Ctx hempty b m hb
      exact (LoopBoundSources.getLoopBound_manual_iff hempty).mpr (hoverridden Ctx hempty).1 b m
        ((hupper Ctx hempty).symm.trans hb)
    · intro Ctx hempty b m hb
      exact (LoopBoundSources.getLoopBound_manual_iff hempty).mpr (hoverridden Ctx hempty).2 b m
        ((hlower Ctx hempty).symm.trans hb)

/-- A loop whose function is called from two call sites. Its upper bound for the first one is
also given manually. -/
def twoCallSites : LoopBoundInfoPass where
  getAllLoops := [⟨0, [0]⟩]
  LoopContextMap _ := some [⟨[.callSite 1]⟩, ⟨[.callSite 2]⟩]
  upper :=
    { LoopBounds := fun _ => some fun Ctx => if Ctx = ⟨[.callSite 1]⟩ then some 7 else some 9
      ManualLoopBounds := fun _ => some fun Ctx =>
        if Ctx = ⟨[.callSite 1]⟩ then some 10 else none
      ManualLoopBoundsNoCtx := fun _ => none }
  lower :=
    { LoopBounds := fun _ => some fun Ctx => if Ctx = ⟨[.callSite 1]⟩ then some 2 else some 5
      ManualLoopBounds := fun _ => none
      ManualLoopBoundsNoCtx := fun _ => none }

/-- The lower bound for all contexts is too great, and the manual bound is not used. -/
theorem twoCallSites_not_sound :
    (twoCallSites.getLowerLoopBound ⟨0, [0]⟩ ⟨[]⟩ = .ok 5 ∧
      twoCallSites.getLowerLoopBound ⟨0, [0]⟩ ⟨[.callSite 1]⟩ = .ok 2 ∧
      twoCallSites.getUpperLoopBound ⟨0, [0]⟩ ⟨[.callSite 1]⟩ = .ok 7 ∧
      twoCallSites.upper.manual ⟨0, [0]⟩ ⟨[.callSite 1]⟩ = some 10) ∧
      ¬twoCallSites.SoundFor ⟨0, [0]⟩ := by
  refine ⟨by decide, fun h => ?_⟩
  have hlower : (5 : BitVec 32) ≤ 2 := h.lower [⟨[.callSite 1]⟩, ⟨[.callSite 2]⟩] rfl
    ⟨[.callSite 1]⟩ (by simp) 5 2 (by decide) (by decide)
  exact absurd hlower (by decide)

end Soundness

end LoopBoundInfoPass

end Llvmta
