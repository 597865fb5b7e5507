import Llvmta.Util.Muticoreinfo

/-!
# The windows after a round of updates

A round updates all tasks of all cores, in the order in which they were added. If no function
is twice on a core, the windows after a round are the sums of the execution times of the
round. The second task of a function never gets a window.
-/

namespace Llvmta

open Checked

/-- The execution times of a round, by core and index. -/
abbrev Round := ℕ → ℕ → TimePair

namespace Multicoreinfo

variable (mcif : Multicoreinfo)

/-- The tasks that are added, each to a core. -/
def addTasks (coreNum : ℕ) (tasks : List (ℕ × String)) : Except Fault Multicoreinfo :=
  tasks.foldlM (fun mcif task => mcif.addTask task.1 task.2) (new coreNum)

/-- One task of a core after the other. -/
def updateTasks (core : ℕ) (times : ℕ → TimePair) (tasks : List (String × ℕ)) :
    Except Fault Multicoreinfo :=
  tasks.foldlM (fun mcif task => do
    let (_, mcif) ← mcif.updateTaskTime core task.1 (times task.2).1 (times task.2).2
    .ok mcif) mcif

def updateCore (round : Round) (core : ℕ) : Except Fault Multicoreinfo := do
  let tasks ← read mcif.cores core
  mcif.updateTasks core (round core) tasks.coreinfo.zipIdx

def updateRound (round : Round) : Except Fault Multicoreinfo :=
  (List.range mcif.cores.length).foldlM (fun mcif core => mcif.updateCore round core) mcif

def updateRounds (rounds : List Round) : Except Fault Multicoreinfo :=
  rounds.foldlM updateRound mcif

end Multicoreinfo

section Sums

/-- The window of a task: the best-case times before it, and the worst-case times up to its
own. -/
def windowOf (times : ℕ → TimePair) (i : ℕ) : ℕ × ℕ :=
  (∑ j ∈ Finset.range i, (times j).1.toNat, ∑ j ∈ Finset.range (i + 1), (times j).2.toNat)

/-- The sums in 32 bits. -/
def startSum (times : ℕ → TimePair) : ℕ → BitVec 32
  | 0 => 0
  | i + 1 => startSum times i + (times i).1

def stopSum (times : ℕ → TimePair) : ℕ → BitVec 32
  | 0 => 0
  | i + 1 => stopSum times i + (times i).2

variable {times : ℕ → TimePair}

theorem toNat_startSum (i : ℕ) :
    (startSum times i).toNat = (∑ j ∈ Finset.range i, (times j).1.toNat) % 2 ^ 32 := by
  induction i with
  | zero => rfl
  | succ i ih => rw [startSum, BitVec.toNat_add, ih, Finset.sum_range_succ, Nat.mod_add_mod]

theorem toNat_stopSum (i : ℕ) :
    (stopSum times i).toNat = (∑ j ∈ Finset.range i, (times j).2.toNat) % 2 ^ 32 := by
  induction i with
  | zero => rfl
  | succ i ih => rw [stopSum, BitVec.toNat_add, ih, Finset.sum_range_succ, Nat.mod_add_mod]

end Sums

namespace CoreTasks

/-- The updates of the tasks of a core. -/
def updateTasks (core : CoreTasks) (times : ℕ → TimePair) (tasks : List (String × ℕ)) :
    Except Fault CoreTasks :=
  tasks.foldlM (fun core task => do
    let (_, core) ← core.updateTaskTime task.1 (times task.2).1 (times task.2).2
    .ok core) core

/-- The windows when the first tasks have been updated. -/
structure UpdatedUpTo (times : ℕ → TimePair) (k : ℕ) (core : CoreTasks) : Prop where
  stop : ∀ j < k, core.stopOf j = stopSum times (j + 1)
  start : ∀ j ≤ k, j < core.schedule.length → core.startOf j = startSum times j

/-- No function has this index on the core. -/
def Unreachable (core : CoreTasks) (q : ℕ) : Prop := ∀ f ∈ core.coreinfo, core.coreinfo.idxOf f ≠ q

section Step

variable {core core' : CoreTasks} {times : ℕ → TimePair} {i k : ℕ} {early latest : BitVec 32}

theorem WellFormed.update (h : core.WellFormed) (hupdate : UpdatesAt i early latest core core') :
    core'.WellFormed where
  schedule_length := by rw [hupdate.schedule_length, hupdate.coreinfo, h.schedule_length]
  BWtime_length := by rw [hupdate.BWtime_length, hupdate.coreinfo, h.BWtime_length]
  coreOrz_eq f := by rw [hupdate.coreOrz, hupdate.coreinfo, h.coreOrz_eq]
  startOf_zero := by
    rw [hupdate.startOf, if_neg (by omega), h.startOf_zero]

/-- The next task in the order extends the updated ones. -/
theorem UpdatedUpTo.step (h : UpdatedUpTo times k core) (hk : k < core.schedule.length)
    (hupdate : UpdatesAt k (times k).1 (times k).2 core core') :
    UpdatedUpTo times (k + 1) core' where
  stop j hj := by
    rw [hupdate.stopOf]
    by_cases hjk : j = k
    · subst hjk
      rw [if_pos rfl, stopSum]
      congr 1
      cases j with
      | zero => rfl
      | succ j => rw [if_neg (by omega), Nat.add_sub_cancel, h.stop j (by omega)]
    · rw [if_neg hjk]
      exact h.stop j (by omega)
  start j hj hlt := by
    rw [hupdate.schedule_length] at hlt
    rw [hupdate.startOf]
    by_cases hjk : j = k + 1
    · subst hjk
      rw [if_pos ⟨rfl, hlt⟩, startSum, h.start k le_rfl hk]
    · rw [if_neg fun h => hjk h.1]
      exact h.start j (by omega) hlt

end Step

/-- What the updates of all tasks do to a core. -/
structure UpdatesAll (times : ℕ → TimePair) (core core' : CoreTasks) : Prop where
  coreinfo : core'.coreinfo = core.coreinfo
  wellFormed : core'.WellFormed
  stop_of_unreachable : ∀ q, core.Unreachable q → core'.stopOf q = core.stopOf q

variable {core : CoreTasks} {times : ℕ → TimePair}

/-- The updates of the remaining tasks. -/
theorem updateTasks_rest (h : core.WellFormed) (before rest : List String)
    (hsplit : core.coreinfo = before ++ rest) :
    ∃ core', core.updateTasks times (rest.zipIdx before.length) = .ok core' ∧
      UpdatesAll times core core' ∧ (core.coreinfo.Nodup →
        UpdatedUpTo times before.length core → UpdatedUpTo times core.coreinfo.length core') := by
  induction rest generalizing core before with
  | nil =>
    refine ⟨core, rfl, ⟨rfl, h, fun _ _ => rfl⟩, fun _ hupdated => ?_⟩
    rwa [hsplit, List.append_nil]
  | cons f rest ih =>
    have hmem : f ∈ core.coreinfo := by simp [hsplit]
    have hlt : core.coreinfo.idxOf f < core.coreinfo.length := List.idxOf_lt_length_of_mem hmem
    obtain ⟨changed, next, hnext, hupdate⟩ : ∃ changed next,
        core.updateTaskTime f (times before.length).1 (times before.length).2 =
          .ok (changed, next) ∧ UpdatesAt (core.coreinfo.idxOf f) (times before.length).1
            (times before.length).2 core next :=
      updateTaskTime_spec ((h.coreOrz_eq f).trans (if_pos hmem)) (h.schedule_length ▸ hlt)
        (h.BWtime_length ▸ hlt)
    have hsplit' : next.coreinfo = (before ++ [f]) ++ rest := by
      rw [hupdate.coreinfo, hsplit, List.append_assoc]
      rfl
    obtain ⟨core', hrest, hall, hwindows⟩ := ih (h.update hupdate) _ hsplit'
    refine ⟨core', ?_, ⟨?_, hall.wellFormed, ?_⟩, ?_⟩
    · unfold updateTasks at hrest ⊢
      rw [List.zipIdx_cons, List.foldlM_cons]
      dsimp only
      rw [hnext]
      rw [List.length_append, List.length_singleton] at hrest
      exact hrest
    · rw [hall.coreinfo, hupdate.coreinfo]
    · intro q hq
      have hq' : next.Unreachable q := by
        unfold Unreachable
        rw [hupdate.coreinfo]
        exact hq
      rw [hall.stop_of_unreachable q hq', hupdate.stopOf, if_neg (hq f hmem).symm]
    · intro hnodup hupdated
      have hindex : core.coreinfo.idxOf f = before.length := by
        rw [hsplit] at hnodup ⊢
        have hnew : f ∉ before := fun hf =>
          (List.nodup_append.mp hnodup).2.2 f hf f (by simp) rfl
        rw [List.idxOf_append_of_notMem hnew, List.idxOf_cons_self, Nat.add_zero]
      rw [hindex] at hupdate hlt
      rw [← hupdate.coreinfo] at hnodup ⊢
      apply hwindows hnodup
      rw [List.length_append, List.length_singleton]
      exact hupdated.step (h.schedule_length ▸ hlt) hupdate

/-- A round on a core: nothing needs to be updated for the start of the first task. -/
theorem updateTasks_spec (h : core.WellFormed) (times : ℕ → TimePair) :
    ∃ core', core.updateTasks times core.coreinfo.zipIdx = .ok core' ∧
      UpdatesAll times core core' ∧
      (core.coreinfo.Nodup → UpdatedUpTo times core.coreinfo.length core') := by
  obtain ⟨core', hok, hall, hwindows⟩ := updateTasks_rest h [] core.coreinfo rfl
  refine ⟨core', hok, hall, fun hnodup => hwindows hnodup ⟨fun j hj => ?_, fun j hj _ => ?_⟩⟩
  · exact absurd hj (by simp)
  · obtain rfl : j = 0 := by simpa using hj
    exact h.startOf_zero

end CoreTasks

namespace Multicoreinfo

variable {mcif mcif' : Multicoreinfo} {c : ℕ} {core : CoreTasks}

theorem read_cores (hcore : mcif.cores[c]? = some core) : read mcif.cores c = .ok core := by
  unfold Checked.read
  rw [hcore]

theorem write_cores (hcore : mcif.cores[c]? = some core) (core' : CoreTasks) :
    write mcif.cores c core' = .ok (mcif.cores.set c core') :=
  write_of_lt (List.getElem?_eq_some_iff.mp hcore).1 core'

/-- The updates of the tasks of a core change this core only. -/
theorem updateTasks_eq (hcore : mcif.cores[c]? = some core) (times : ℕ → TimePair)
    (tasks : List (String × ℕ)) {core' : CoreTasks} (h : core.updateTasks times tasks = .ok core') :
    mcif.updateTasks c times tasks = .ok ⟨mcif.cores.set c core'⟩ := by
  induction tasks generalizing mcif core with
  | nil =>
    cases h
    obtain ⟨hlt, rfl⟩ := List.getElem?_eq_some_iff.mp hcore
    rw [List.set_getElem_self]
    rfl
  | cons task tasks ih =>
    unfold CoreTasks.updateTasks at h
    rw [List.foldlM_cons] at h
    obtain ⟨next, hnext, h⟩ := bind_eq_ok.mp h
    obtain ⟨⟨changed, _⟩, hupdate, hnext⟩ := bind_eq_ok.mp hnext
    cases hnext
    have hlt := (List.getElem?_eq_some_iff.mp hcore).1
    have hcore' : (mcif.cores.set c next)[c]? = some next := by
      rw [List.getElem?_set_self hlt]
    have hrest : updateTasks ⟨mcif.cores.set c next⟩ c times tasks =
        .ok ⟨(mcif.cores.set c next).set c core'⟩ := ih hcore' h
    unfold updateTasks at hrest ⊢
    rw [List.foldlM_cons, updateTaskTime, read_cores hcore]
    dsimp only [bind, Except.bind]
    rw [hupdate]
    dsimp only
    rw [write_cores hcore]
    dsimp only
    rw [List.set_set] at hrest
    exact hrest

/-- All cores are well-formed. -/
def WellFormed (mcif : Multicoreinfo) : Prop := ∀ core ∈ mcif.cores, core.WellFormed

/-- What a round does to the cores up to one. -/
structure RoundUpTo (round : Round) (k : ℕ) (mcif mcif' : Multicoreinfo) : Prop where
  length : mcif'.cores.length = mcif.cores.length
  updated : ∀ c core, c < k → mcif.cores[c]? = some core → ∃ core', mcif'.cores[c]? = some core' ∧
    CoreTasks.UpdatesAll (round c) core core' ∧
    (core.coreinfo.Nodup → CoreTasks.UpdatedUpTo (round c) core.coreinfo.length core')
  same : ∀ c, k ≤ c → mcif'.cores[c]? = mcif.cores[c]?

theorem updateRound_spec (h : mcif.WellFormed) (round : Round) :
    ∃ mcif', mcif.updateRound round = .ok mcif' ∧
      RoundUpTo round mcif.cores.length mcif mcif' := by
  have hrun : ∀ k ≤ mcif.cores.length, ∃ mcif',
      (List.range k).foldlM (fun mcif core => mcif.updateCore round core) mcif = .ok mcif' ∧
        RoundUpTo round k mcif mcif' := by
    intro k hk
    induction k with
    | zero => exact ⟨mcif, rfl, rfl, fun _ _ h => absurd h (by simp), fun _ _ => rfl⟩
    | succ k ih =>
      obtain ⟨next, hnext, hround⟩ := ih (by omega)
      obtain ⟨core, hcore⟩ : ∃ core, mcif.cores[k]? = some core :=
        ⟨_, List.getElem?_eq_getElem (by omega)⟩
      have hcore' : next.cores[k]? = some core := (hround.same k le_rfl).trans hcore
      obtain ⟨core', hupdate, hall, hwindows⟩ :=
        CoreTasks.updateTasks_spec (h core (List.mem_of_getElem? hcore)) (round k)
      have hk' : k < next.cores.length := hround.length ▸ hk
      refine ⟨⟨next.cores.set k core'⟩, ?_, ?_, ?_, ?_⟩
      · rw [List.range_succ, List.foldlM_append, hnext]
        dsimp only [bind, Except.bind]
        rw [List.foldlM_cons, updateCore, read_cores hcore']
        dsimp only [bind, Except.bind]
        rw [updateTasks_eq hcore' _ _ hupdate]
        rfl
      · rw [List.length_set, hround.length]
      · intro c own hc hown
        rcases Nat.lt_succ_iff_lt_or_eq.mp hc with hlt | rfl
        · rw [List.getElem?_set_ne (by omega)]
          exact hround.updated c own hlt hown
        · rw [hcore] at hown
          cases hown
          exact ⟨core', List.getElem?_set_self hk', hall, hwindows⟩
      · intro c hc
        rw [List.getElem?_set_ne (by omega)]
        exact hround.same c (by omega)
  exact hrun _ le_rfl

/-- What all rounds keep, and what the last one does. -/
structure RoundsResult (last : Option Round) (mcif mcif' : Multicoreinfo) : Prop where
  length : mcif'.cores.length = mcif.cores.length
  wellFormed : mcif'.WellFormed
  updated : ∀ c core, mcif.cores[c]? = some core → ∃ core', mcif'.cores[c]? = some core' ∧
    core'.coreinfo = core.coreinfo ∧
    (∀ q, core.Unreachable q → core'.stopOf q = core.stopOf q) ∧
    (∀ round ∈ last, core.coreinfo.Nodup →
      CoreTasks.UpdatedUpTo (round c) core.coreinfo.length core')

theorem updateRounds_spec (h : mcif.WellFormed) (rounds : List Round) :
    ∃ mcif', mcif.updateRounds rounds = .ok mcif' ∧
      RoundsResult rounds.getLast? mcif mcif' := by
  induction rounds using List.reverseRecOn with
  | nil =>
    refine ⟨mcif, rfl, rfl, h, fun c core hcore => ⟨core, hcore, rfl, fun _ _ => rfl, ?_⟩⟩
    simp
  | append_singleton rounds round ih =>
    obtain ⟨next, hnext, hresult⟩ := ih
    obtain ⟨mcif', hround, hspec⟩ := updateRound_spec hresult.wellFormed round
    have hcores : ∀ c core, mcif.cores[c]? = some core → ∃ core₁ core',
        next.cores[c]? = some core₁ ∧ mcif'.cores[c]? = some core' ∧ core₁.coreinfo = core.coreinfo ∧
        (∀ q, core.Unreachable q → core₁.stopOf q = core.stopOf q) ∧
        CoreTasks.UpdatesAll (round c) core₁ core' ∧
        (core₁.coreinfo.Nodup →
          CoreTasks.UpdatedUpTo (round c) core₁.coreinfo.length core') := by
      intro c core hcore
      obtain ⟨core₁, hcore₁, hinfo, hstop, -⟩ := hresult.updated c core hcore
      obtain ⟨core', hcore', hall, hwindows⟩ := hspec.updated c core₁
        (List.getElem?_eq_some_iff.mp hcore₁).1 hcore₁
      exact ⟨core₁, core', hcore₁, hcore', hinfo, hstop, hall, hwindows⟩
    refine ⟨mcif', ?_, hspec.length.trans hresult.length, ?_, ?_⟩
    · unfold updateRounds at hnext ⊢
      rw [List.foldlM_append, hnext]
      dsimp only [bind, Except.bind]
      rw [List.foldlM_cons, hround]
      rfl
    · intro core' hmem
      obtain ⟨c, hlt, rfl⟩ := List.mem_iff_getElem.mp hmem
      have hlt' : c < next.cores.length := hspec.length ▸ hlt
      obtain ⟨core₂, hcore₂, hall, -⟩ :=
        hspec.updated c _ hlt' (List.getElem?_eq_getElem hlt')
      rw [List.getElem?_eq_getElem hlt] at hcore₂
      cases hcore₂
      exact hall.wellFormed
    · intro c core hcore
      obtain ⟨core₁, core', -, hcore', hinfo, hstop, hall, hwindows⟩ := hcores c core hcore
      refine ⟨core', hcore', hall.coreinfo.trans hinfo, fun q hq => ?_, fun r hr hnodup => ?_⟩
      · have hq' : core₁.Unreachable q := by
          unfold CoreTasks.Unreachable
          rw [hinfo]
          exact hq
        rw [hall.stop_of_unreachable q hq', hstop q hq]
      · rw [List.getLast?_append, List.getLast?_singleton, Option.some_or] at hr
        obtain rfl := Option.mem_some_iff.mp hr
        rw [← hinfo] at hnodup ⊢
        exact hwindows hnodup

section Conflicts

/-- Two windows have a cycle in common. -/
def Overlap (a b : ℕ × ℕ) : Prop := ∃ t, a.1 ≤ t ∧ t < a.2 ∧ b.1 ≤ t ∧ t < b.2

theorem conflicts_of_overlap {a b : TimePair}
    (h : Overlap (a.1.toNat, a.2.toNat) (b.1.toNat, b.2.toNat)) : conflicts a b = true := by
  obtain ⟨t, ha, ha', hb, hb'⟩ := h
  unfold conflicts
  simp only [gt_iff_lt, ge_iff_le, BitVec.lt_def, BitVec.le_def, Bool.or_eq_true,
    Bool.and_eq_true, decide_eq_true_eq]
  dsimp only at ha ha' hb hb'
  omega

theorem mem_conflictsOn {core : CoreTasks} {liftime tlifetime : TimePair} {g : String} {j : ℕ}
    (hwindow : core.schedule[j]? = some tlifetime) (hg : core.coreinfo[j]? = some g)
    (h : conflicts liftime tlifetime = true) : g ∈ conflictsOn liftime core := by
  refine List.mem_map.mpr ⟨(tlifetime, g), List.mem_filter.mpr ⟨?_, h⟩, rfl⟩
  apply List.mem_of_getElem? (i := j)
  rw [List.getElem?_zip_eq_some]
  exact ⟨hwindow, hg⟩

/-- The functions of all other cores whose windows are in conflict are listed. -/
theorem getConflictFunction_spec (h : mcif.WellFormed) (hcore : mcif.cores[c]? = some core)
    {f : String} (hf : f ∈ core.coreinfo) :
    ∃ list, mcif.getConflictFunction c f = .ok (list, mcif) ∧
      ∀ c' (core' : CoreTasks) g (j : ℕ), c' ≠ c → mcif.cores[c']? = some core' →
        core'.coreinfo[j]? = some g → ∀ tlifetime, core'.schedule[j]? = some tlifetime →
          conflicts (core.startOf (core.coreinfo.idxOf f), core.stopOf (core.coreinfo.idxOf f))
            tlifetime = true → g ∈ list := by
  have hwell := h core (List.mem_of_getElem? hcore)
  have hlt : core.coreinfo.idxOf f < core.schedule.length := by
    rw [hwell.schedule_length]
    exact List.idxOf_lt_length_of_mem hf
  refine ⟨mcif.cores.zipIdx.flatMap fun other => if other.2 = c then []
    else conflictsOn core.schedule[core.coreinfo.idxOf f] other.1, ?_, ?_⟩
  · unfold getConflictFunction indexOf
    rw [read_cores hcore]
    dsimp only [bind, Except.bind]
    rw [hwell.coreOrz_eq, if_pos hf]
    dsimp only
    rw [read_cores hcore]
    dsimp only
    rw [read_of_lt hlt]
  · intro c' core' g j hne hcore' hg tlifetime hwindow hconflict
    refine List.mem_flatMap.mpr ⟨(core', c'), ?_, ?_⟩
    · exact List.mk_mem_zipIdx_iff_getElem?.mpr hcore'
    · rw [if_neg hne]
      refine mem_conflictsOn hwindow hg ?_
      unfold CoreTasks.startOf CoreTasks.stopOf at hconflict
      rw [CoreTasks.getD_of_lt hlt] at hconflict
      exact hconflict

end Conflicts

section Added

/-- The cores while tasks are added: no window is set yet. -/
def Unset (mcif : Multicoreinfo) : Prop :=
  ∀ core ∈ mcif.cores, core.WellFormed ∧ ∀ j, core.stopOf j = 0

theorem Unset.new (coreNum : ℕ) : (new coreNum).Unset := by
  intro core hcore
  obtain rfl := List.eq_of_mem_replicate hcore
  exact ⟨.empty, fun j => by simp [CoreTasks.stopOf, CoreTasks.empty]⟩

theorem Unset.addTask (h : mcif.Unset) {num : ℕ} {function : String}
    (hadd : mcif.addTask num function = .ok mcif') : mcif'.Unset := by
  obtain ⟨core, hread, hadd⟩ := bind_eq_ok.mp hadd
  obtain ⟨cores, hwrite, hadd⟩ := bind_eq_ok.mp hadd
  cases hadd
  have hcore := h core (List.mem_of_getElem? (getElem?_of_read hread))
  intro core' hmem
  obtain ⟨j, hlt, rfl⟩ := List.mem_iff_getElem.mp hmem
  have hget := getElem?_of_write hwrite j
  rw [List.getElem?_eq_getElem hlt] at hget
  split_ifs at hget
  · rw [Option.some.inj hget]
    refine ⟨hcore.1.addTask function, fun j => ?_⟩
    have hstop := hcore.2 j
    unfold CoreTasks.stopOf CoreTasks.addTask at *
    grind
  · exact h _ (List.mem_of_getElem? hget.symm)

theorem unset_addTasks {coreNum : ℕ} {tasks : List (ℕ × String)}
    (h : addTasks coreNum tasks = .ok mcif) : mcif.Unset := by
  have hrun : ∀ (tasks : List (ℕ × String)) (first : Multicoreinfo), first.Unset →
      tasks.foldlM (fun mcif task => mcif.addTask task.1 task.2) first = .ok mcif →
        mcif.Unset := by
    intro tasks
    induction tasks with
    | nil =>
      intro first hfirst h
      cases h
      exact hfirst
    | cons task tasks ih =>
      intro first hfirst h
      rw [List.foldlM_cons] at h
      obtain ⟨next, hnext, h⟩ := bind_eq_ok.mp h
      exact ih next (hfirst.addTask hnext) h
  exact hrun tasks _ (.new coreNum) h

end Added

section Consistency

/-- The windows after a round are the sums of its execution times, and all overlaps with the
windows of other cores are listed. -/
structure Consistent (round : Round) (mcif : Multicoreinfo) : Prop where
  windows : ∀ c (core : CoreTasks), mcif.cores[c]? = some core → ∀ i < core.coreinfo.length,
    ((core.startOf i).toNat, (core.stopOf i).toNat) = windowOf (round c) i
  conflicts : ∀ c (core : CoreTasks) f (i : ℕ), mcif.cores[c]? = some core →
    core.coreinfo[i]? = some f →
      ∃ list mcif', mcif.getConflictFunction c f = .ok (list, mcif') ∧
        ∀ c' (core' : CoreTasks) g (j : ℕ), c' ≠ c → mcif.cores[c']? = some core' →
          core'.coreinfo[j]? = some g →
            Overlap (windowOf (round c) i) (windowOf (round c') j) → g ∈ list

/-- The sums of the execution times of the tasks of each core have 32 bits. -/
def FitsIn32Bits (mcif : Multicoreinfo) (round : Round) : Prop :=
  ∀ c (core : CoreTasks), mcif.cores[c]? = some core → ∀ i < core.coreinfo.length,
    (windowOf (round c) i).1 < 2 ^ 32 ∧ (windowOf (round c) i).2 < 2 ^ 32

theorem idxOf_of_nodup {l : List String} {f : String} {i : ℕ} (hnodup : l.Nodup)
    (h : l[i]? = some f) : l.idxOf f = i := by
  obtain ⟨hlt, rfl⟩ := List.getElem?_eq_some_iff.mp h
  exact hnodup.idxOf_getElem i hlt

/-- Without a function that is twice on a core, the windows are consistent if they fit. -/
theorem consistent_iff_of_nodup (h : mcif.WellFormed) (rounds : List Round) (hne : rounds ≠ [])
    (hnodup : ∀ core ∈ mcif.cores, core.coreinfo.Nodup) :
    (∃ mcif', mcif.updateRounds rounds = .ok mcif' ∧ Consistent (rounds.getLast hne) mcif') ↔
      mcif.FitsIn32Bits (rounds.getLast hne) := by
  obtain ⟨mcif', hok, hresult⟩ := updateRounds_spec h rounds
  rw [List.getLast?_eq_getLast_of_ne_nil hne] at hresult
  generalize rounds.getLast hne = round at hresult ⊢
  have hwindow : ∀ c (core' : CoreTasks), mcif'.cores[c]? = some core' →
      core'.coreinfo.Nodup ∧ core'.WellFormed ∧ ∃ core, mcif.cores[c]? = some core ∧
        core'.coreinfo = core.coreinfo ∧ ∀ i < core'.coreinfo.length,
          (core'.startOf i).toNat = (windowOf (round c) i).1 % 2 ^ 32 ∧
            (core'.stopOf i).toNat = (windowOf (round c) i).2 % 2 ^ 32 := by
    intro c core' hcore'
    have hlt : c < mcif.cores.length :=
      hresult.length ▸ (List.getElem?_eq_some_iff.mp hcore').1
    obtain ⟨core₁, hcore₁, hinfo, -, hwindows⟩ :=
      hresult.updated c _ (List.getElem?_eq_getElem hlt)
    rw [hcore'] at hcore₁
    cases hcore₁
    have hdistinct := hnodup _ (List.getElem_mem hlt)
    have hwell := hresult.wellFormed core' (List.mem_of_getElem? hcore')
    have hupdated := hwindows round rfl hdistinct
    refine ⟨hinfo ▸ hdistinct, hwell, _, List.getElem?_eq_getElem hlt, hinfo, fun i hi => ?_⟩
    have hi' : i < core'.schedule.length := hwell.schedule_length ▸ hi
    rw [hinfo] at hi
    rw [hupdated.start i hi.le hi', hupdated.stop i hi, toNat_startSum, toNat_stopSum]
    exact ⟨rfl, rfl⟩
  constructor
  · rintro ⟨mcif'', hok', hconsistent⟩ c core hcore i hi
    rw [hok] at hok'
    cases hok'
    obtain ⟨core', hcore', hinfo, -⟩ := hresult.updated c core hcore
    rw [← hinfo] at hi
    have hown := hconsistent.windows c core' hcore' i hi
    rw [← hown]
    exact ⟨BitVec.isLt _, BitVec.isLt _⟩
  · intro hfits
    have hexact : ∀ c (core' : CoreTasks), mcif'.cores[c]? = some core' →
        ∀ i < core'.coreinfo.length,
          ((core'.startOf i).toNat, (core'.stopOf i).toNat) = windowOf (round c) i := by
      intro c core' hcore' i hi
      obtain ⟨-, -, core, hcore, hinfo, hsums⟩ := hwindow c core' hcore'
      obtain ⟨hstart, hstop⟩ := hsums i hi
      obtain ⟨hfit, hfit'⟩ := hfits c core hcore i (hinfo ▸ hi)
      rw [hstart, hstop, Nat.mod_eq_of_lt hfit, Nat.mod_eq_of_lt hfit']
    refine ⟨mcif', hok, hexact, ?_⟩
    intro c core f i hcore hf
    obtain ⟨list, hlist, hmem⟩ := getConflictFunction_spec hresult.wellFormed hcore
      (List.mem_of_getElem? hf)
    refine ⟨list, mcif', hlist, ?_⟩
    intro c' core' g j hne' hcore' hg hoverlap
    obtain ⟨hdistinct, -⟩ := hwindow c core hcore
    have hwell' := (hwindow c' core' hcore').2.1
    have hj : j < core'.coreinfo.length := (List.getElem?_eq_some_iff.mp hg).1
    have hj' : j < core'.schedule.length := hwell'.schedule_length ▸ hj
    refine hmem c' core' g j hne' hcore' hg _ (List.getElem?_eq_getElem hj') ?_
    apply conflicts_of_overlap
    rw [idxOf_of_nodup hdistinct hf,
      hexact c core hcore i (List.getElem?_eq_some_iff.mp hf).1]
    have hother := hexact c' core' hcore' j hj
    unfold CoreTasks.startOf CoreTasks.stopOf at hother
    rw [CoreTasks.getD_of_lt hj'] at hother
    rw [hother]
    exact hoverlap

/-- The second task of a function does not get a window. -/
theorem not_consistent_of_duplicate (h : mcif.Unset) {c q : ℕ}
    (hcore : mcif.cores[c]? = some core) (hq : q < core.coreinfo.length)
    (hunreachable : core.Unreachable q) {rounds : List Round}
    {round : Round} (hpos : 0 < (windowOf (round c) q).2) :
    ¬∃ mcif', mcif.updateRounds rounds = .ok mcif' ∧ Consistent round mcif' := by
  rintro ⟨mcif', hok, hconsistent⟩
  obtain ⟨mcif'', hok', hresult⟩ := updateRounds_spec (fun core hcore => (h core hcore).1) rounds
  rw [hok] at hok'
  cases hok'
  obtain ⟨core', hcore', hinfo, hstop, -⟩ := hresult.updated c core hcore
  have hwindow := hconsistent.windows c core' hcore' q (hinfo ▸ hq)
  rw [hstop q hunreachable, (h core (List.mem_of_getElem? hcore)).2 q] at hwindow
  have hzero : 0 = (windowOf (round c) q).2 := (Prod.ext_iff.mp hwindow).2
  omega

/-- A list with a duplicate has an index that is the first one of no entry. -/
theorem exists_not_idxOf {l : List String} (h : ¬l.Nodup) :
    ∃ q < l.length, ∀ f ∈ l, l.idxOf f ≠ q := by
  induction l using List.reverseRecOn with
  | nil => exact absurd List.nodup_nil h
  | append_singleton l g ih =>
    have hmem : ∀ f ∈ l, (l ++ [g]).idxOf f = l.idxOf f := fun f hf =>
      List.idxOf_append_of_mem hf
    by_cases hg : g ∈ l
    · refine ⟨l.length, by simp, fun f hf => ?_⟩
      have hf' : f ∈ l := by
        rcases List.mem_append.mp hf with hf | hf
        · exact hf
        · exact (List.mem_singleton.mp hf) ▸ hg
      rw [hmem f hf']
      exact (List.idxOf_lt_length_of_mem hf').ne
    · have hdup : ¬l.Nodup := fun hl => h (List.nodup_append.mpr
        ⟨hl, List.nodup_singleton g, fun f hf f' hf' heq => hg (by simp_all)⟩)
      obtain ⟨q, hq, hfirst⟩ := ih hdup
      refine ⟨q, by simp; omega, fun f hf => ?_⟩
      rcases List.mem_append.mp hf with hf | hf
      · rw [hmem f hf]
        exact hfirst f hf
      · obtain rfl := List.mem_singleton.mp hf
        rw [List.idxOf_append_of_notMem hg]
        omega

/-- One cycle for the first task of each core. -/
def firstTaskOnly : Round := fun _ i => if i = 0 then (0, 1) else (0, 0)

theorem windowOf_firstTaskOnly (c i : ℕ) : windowOf (firstTaskOnly c) i = (0, 1) := by
  have hstart : ∀ j ∈ Finset.range i, (firstTaskOnly c j).1.toNat = 0 := by
    intro j _
    unfold firstTaskOnly
    split_ifs <;> rfl
  unfold windowOf
  rw [Finset.sum_eq_zero hstart, Finset.sum_range_succ']
  simp [firstTaskOnly]

/-- The windows and conflicts are right in every run whose sums fit if and only if no
function is twice on a core. -/
theorem consistent_iff_nodup {coreNum : ℕ} {tasks : List (ℕ × String)}
    (h : addTasks coreNum tasks = .ok mcif) :
    (∀ (rounds : List Round) (hne : rounds ≠ []),
      (∃ mcif', mcif.updateRounds rounds = .ok mcif' ∧
        Consistent (rounds.getLast hne) mcif') ↔ mcif.FitsIn32Bits (rounds.getLast hne)) ↔
      ∀ core ∈ mcif.cores, core.coreinfo.Nodup := by
  have hunset := unset_addTasks h
  constructor
  · intro hall core hmem
    by_contra hdup
    obtain ⟨c, hcore⟩ := List.mem_iff_getElem?.mp hmem
    obtain ⟨q, hq, hunreachable⟩ := exists_not_idxOf hdup
    have hpos : 0 < (windowOf (firstTaskOnly c) q).2 := by
      rw [windowOf_firstTaskOnly]
      exact Nat.one_pos
    apply not_consistent_of_duplicate hunset hcore hq hunreachable hpos
    apply (hall [firstTaskOnly] (by simp)).mpr
    intro c core _ i _
    rw [List.getLast_singleton, windowOf_firstTaskOnly]
    decide
  · intro hnodup rounds hne
    exact consistent_iff_of_nodup (fun core hcore => (hunset core hcore).1) rounds hne hnodup

/-- A function is the first and the third task of a core. -/
def firstAndThirdTask : List (ℕ × String) :=
  [(0, "f"), (0, "g"), (0, "f"), (1, "h"), (1, "k")]

/-- The tasks of the first core take one or two cycles; the second core starts its second
task while the third one of the first core can be at work. -/
def shortTasks : Round
  | 0, _ => (1, 2)
  | _, 0 => (4, 4)
  | _, _ => (1, 2)

/-- The overlap with the third task is missed. -/
theorem firstAndThirdTask_missed :
    ∃ mcif mcif', addTasks 2 firstAndThirdTask = .ok mcif ∧
      mcif.updateRounds [shortTasks] = .ok mcif' ∧
      (mcif'.getConflictFunction 0 "f").map Prod.fst = .ok ["h"] ∧
      Overlap (windowOf (shortTasks 0) 2) (windowOf (shortTasks 1) 1) ∧
      ¬Consistent shortTasks mcif' := by
  refine ⟨_, _, rfl, rfl, by decide +kernel, ⟨4, by decide⟩, fun h => ?_⟩
  have hwindow := h.windows 0 _ rfl 2 (by decide)
  revert hwindow
  decide +kernel

/-- Each core has one task. -/
def oneTaskEach : Multicoreinfo := ⟨[CoreTasks.empty.addTask "f", CoreTasks.empty.addTask "g"]⟩

theorem consistent_oneTaskEach :
    (∀ (rounds : List Round) (hne : rounds ≠ []),
      (∃ mcif', oneTaskEach.updateRounds rounds = .ok mcif' ∧
        Consistent (rounds.getLast hne) mcif') ↔ oneTaskEach.FitsIn32Bits (rounds.getLast hne)) ↔
      ∀ core ∈ oneTaskEach.cores, core.coreinfo.Nodup :=
  consistent_iff_nodup
    (show addTasks 2 [(0, "f"), (1, "g")] = .ok oneTaskEach from rfl)

end Consistency

end Multicoreinfo

end Llvmta
