import Llvmta.AnalysisFramework.GraphIterator

/-!
# The result of the fixpoint iteration covers every path

A state that reaches a vertex is below the one stored there, and a vertex whose
stored state changes is queued. So an edge whose source is not queued hands on
a state that is below the stored one of its target; at the end this holds of
every edge, and a monotone update carries it along paths.
-/

namespace Llvmta

open Checked

namespace GraphIterator

section Order

variable {χ : Type}

theorem front_eq_some {s : FixpointState χ} {next : ℕ} (h : front s = some next) :
    next ∈ s.worklist ∧ ∀ v ∈ s.worklist, next ≤ v :=
  ⟨Finset.mem_of_min h, fun _ hv => Finset.min_le_of_eq hv h⟩

theorem front_eq_none {s : FixpointState χ} (h : front s = none) : s.worklist = ∅ :=
  Finset.min_eq_top.mp h

variable [SemilatticeSup χ]

/-- A state is stored for `n` and is at least `c`. -/
def Reaches (s : FixpointState χ) (n : ℕ) (c : χ) : Prop :=
  ∃ stored, s.cacheStates n = some stored ∧ c ≤ stored

/-- What a piece of the iteration does to the stored states and the worklist. -/
structure Extends (s s' : FixpointState χ) : Prop where
  reaches : ∀ n c, Reaches s n c → Reaches s' n c
  queued : s.worklist ⊆ s'.worklist
  changed : ∀ n, s'.cacheStates n = s.cacheStates n ∨ n ∈ s'.worklist
  fresh : ∀ n ∈ s'.worklist, n ∈ s.worklist ∨ (s'.cacheStates n).isSome

theorem Extends.refl (s : FixpointState χ) : Extends s s :=
  ⟨fun _ _ h => h, Finset.Subset.refl _, fun _ => Or.inl rfl, fun _ h => Or.inl h⟩

/-- A stored state stays stored, possibly enlarged. -/
theorem Extends.visited {s s' : FixpointState χ} (h : Extends s s') {n : ℕ}
    (hn : (s.cacheStates n).isSome) : (s'.cacheStates n).isSome := by
  obtain ⟨c, hc⟩ := Option.isSome_iff_exists.mp hn
  obtain ⟨c', hc', _⟩ := h.reaches n c ⟨c, hc, le_rfl⟩
  exact hc' ▸ rfl

theorem Extends.trans {s t u : FixpointState χ} (hst : Extends s t) (htu : Extends t u) :
    Extends s u where
  reaches n c h := htu.reaches n c (hst.reaches n c h)
  queued := hst.queued.trans htu.queued
  changed n := by
    rcases htu.changed n with h | h
    · rcases hst.changed n with h' | h'
      · exact Or.inl (h.trans h')
      · exact Or.inr (htu.queued h')
    · exact Or.inr h
  fresh n hn := by
    rcases htu.fresh n hn with h | h
    · exact (hst.fresh n h).imp_right htu.visited
    · exact Or.inr h

theorem extends_store {s : FixpointState χ} {n : ℕ} {c : χ}
    (h : ∀ stored, s.cacheStates n = some stored → stored ≤ c) : Extends s (store s n c) where
  reaches m d hd := by
    obtain ⟨stored, hs, hle⟩ := hd
    by_cases hm : m = n
    · subst m
      exact ⟨c, by simp [store], hle.trans (h stored hs)⟩
    · exact ⟨stored, by simp [store, hm, hs], hle⟩
  queued := Finset.subset_insert _ _
  changed m := by
    by_cases hm : m = n
    · exact Or.inr (by simp [store, hm])
    · exact Or.inl (by simp [store, hm])
  fresh m hm := by
    rcases Finset.mem_insert.mp hm with rfl | hm
    · exact Or.inr (by simp [store])
    · exact Or.inl hm

theorem reaches_store (s : FixpointState χ) (n : ℕ) (c : χ) : Reaches (store s n c) n c :=
  ⟨c, by simp [store], le_rfl⟩

variable [DecidableEq χ]

theorem extends_propagate (s : FixpointState χ) (n : ℕ) (c : χ) :
    Extends s (propagate s n c) := by
  unfold propagate
  split
  · rename_i hnone
    exact extends_store fun stored hs => by simp [hnone] at hs
  · rename_i stored hstored
    split_ifs with hc
    · exact Extends.refl s
    · refine extends_store fun stored' hs => ?_
      rw [hstored, Option.some.injEq] at hs
      exact hs ▸ le_sup_left

/-- What reaches a vertex is below what is stored afterwards. -/
theorem reaches_propagate (s : FixpointState χ) (n : ℕ) (c : χ) :
    Reaches (propagate s n c) n c := by
  unfold propagate
  split
  · exact reaches_store s n c
  · rename_i stored hstored
    split_ifs with hc
    · exact ⟨stored, hstored, hc.le⟩
    · exact ⟨stored ⊔ c, by simp [store], le_sup_right⟩

end Order

variable {χ ι : Type} [SemilatticeSup χ] (I : GraphIterator χ ι)

/-- The edge from `u` to `n` hands on a state that is below the stored one. -/
def Satisfied (s : FixpointState χ) (u n : ℕ) : Prop :=
  n ≠ 0 → ∀ c, s.cacheStates u = some c → Reaches s n (I.applyEdge u n c)

variable {I}

/-- Queued vertices are visited, and the edges of the others are satisfied. -/
structure Invariant (I : GraphIterator χ ι) (s : FixpointState χ) : Prop where
  start : Reaches s 0 (I.domain.new true)
  visited : ∀ u ∈ s.worklist, (s.cacheStates u).isSome
  satisfied : ∀ u ∉ s.worklist, ∀ n ∈ I.adjacentNodes u, I.Satisfied s u n

theorem invariant_start : I.Invariant I.start where
  start := ⟨I.domain.new true, by simp [GraphIterator.start], le_rfl⟩
  visited u hu := by
    have : u = 0 := by simpa [GraphIterator.start] using hu
    simp [GraphIterator.start, this]
  satisfied u hu n _ _ c hc := by
    have hne : u ≠ 0 := by simpa [GraphIterator.start] using hu
    simp [GraphIterator.start, hne] at hc

/-- A stored state that a part of the loop leaves as it is, is still there. -/
theorem satisfied_of_extends {s s' : FixpointState χ} {u n : ℕ} (hext : Extends s s')
    (hu : u ∉ s'.worklist) (h : I.Satisfied s u n) : I.Satisfied s' u n := by
  intro hn c hc
  rw [(hext.changed u).resolve_right hu] at hc
  exact hext.reaches n _ (h hn c hc)

/-- The edges of a path, in the direction of the analysis; vertex 0 ends it. -/
def IsPath (I : GraphIterator χ ι) (path : List ℕ) : Prop :=
  (0 :: path).IsChain fun u n => n ∈ I.adjacentNodes u ∧ n ≠ 0

/-- The state after the updates of the edges of a path. -/
def pathState (I : GraphIterator χ ι) : ℕ → χ → List ℕ → χ
  | _, c, [] => c
  | u, c, n :: path => I.pathState n (I.applyEdge u n c) path

theorem monotone_applyEdge
    (hmono : ∀ a ty info, Monotone fun c => I.domain.update c a ty info) (u n : ℕ) :
    Monotone (I.applyEdge u n) := by
  intro c d hcd
  unfold applyEdge
  induction I.edgeAddresses u n generalizing c d with
  | nil => exact hcd
  | cons a addresses ih => exact ih (hmono a .load _ hcd)

/-- Satisfied edges carry what is below the stored state of their source to what
is below the stored state of their target. -/
theorem reaches_pathState {s : FixpointState χ}
    (hmono : ∀ a ty info, Monotone fun c => I.domain.update c a ty info)
    (hsat : ∀ u, ∀ n ∈ I.adjacentNodes u, I.Satisfied s u n) (path : List ℕ) :
    ∀ u c, (u :: path).IsChain (fun u n => n ∈ I.adjacentNodes u ∧ n ≠ 0) → Reaches s u c →
      Reaches s ((u :: path).getLast (List.cons_ne_nil u path)) (I.pathState u c path) := by
  induction path with
  | nil => exact fun u c _ hc => hc
  | cons n path ih =>
    intro u c hpath hc
    obtain ⟨⟨hn, hn0⟩, hrest⟩ := List.isChain_cons_cons.mp hpath
    obtain ⟨stored, hstored, hle⟩ := hc
    obtain ⟨stored', hstored', hle'⟩ := hsat u n hn hn0 stored hstored
    have hreach : Reaches s n (I.applyEdge u n c) :=
      ⟨stored', hstored', (monotone_applyEdge hmono u n hle).trans hle'⟩
    exact ih n _ hrest hreach

variable [DecidableEq χ]

theorem processNeighbour_zero (next : ℕ) (s : FixpointState χ) :
    I.processNeighbour next s 0 = .ok s := by simp [processNeighbour]

theorem processNeighbour_of_visited {next n : ℕ} {s : FixpointState χ} {c : χ} (hn : n ≠ 0)
    (hc : s.cacheStates next = some c) :
    I.processNeighbour next s n = .ok (propagate s n (I.applyEdge next n c)) := by
  simp [processNeighbour, hn, hc]

theorem processNeighbour_spec {next n : ℕ} {s : FixpointState χ}
    (hvisited : (s.cacheStates next).isSome) :
    ∃ s', I.processNeighbour next s n = .ok s' ∧ Extends s s' ∧
      (s'.cacheStates next = s.cacheStates next → I.Satisfied s' next n) := by
  obtain ⟨c, hc⟩ := Option.isSome_iff_exists.mp hvisited
  by_cases hn : n = 0
  · subst n
    exact ⟨s, processNeighbour_zero next s, Extends.refl s, fun _ h => absurd rfl h⟩
  · refine ⟨_, processNeighbour_of_visited hn hc, extends_propagate s n _, fun hsame _ d hd => ?_⟩
    rw [hsame, hc, Option.some.injEq] at hd
    exact hd ▸ reaches_propagate s n _

/-- The loop over the neighbours. If the state of `next` is the same at its end,
its edges are satisfied. -/
theorem foldlM_processNeighbour_spec {next : ℕ} (nodes : List ℕ) {s : FixpointState χ}
    (hvisited : (s.cacheStates next).isSome) :
    ∃ s', nodes.foldlM (I.processNeighbour next) s = .ok s' ∧ Extends s s' ∧
      (next ∉ s'.worklist → ∀ n ∈ nodes, I.Satisfied s' next n) := by
  induction nodes generalizing s with
  | nil => exact ⟨s, rfl, Extends.refl s, fun _ n hn => absurd hn List.not_mem_nil⟩
  | cons n nodes ih =>
    obtain ⟨s₁, hs₁, hext₁, hsat₁⟩ := processNeighbour_spec (I := I) (n := n) hvisited
    obtain ⟨s', hs', hext, hsat⟩ := ih (hext₁.visited hvisited)
    refine ⟨s', by rw [List.foldlM_cons, hs₁]; exact hs', hext₁.trans hext, fun hnext m hm => ?_⟩
    rcases List.mem_cons.mp hm with rfl | hm
    · -- `next` was not queued again, so its state is still the one handed on
      have hsame : s'.cacheStates next = s₁.cacheStates next :=
        (hext.changed next).resolve_right hnext
      have hsame₁ : s₁.cacheStates next = s.cacheStates next :=
        (hext₁.changed next).resolve_right fun h => hnext (hext.queued h)
      intro hm0 c hc
      exact hext.reaches m _ (hsat₁ hsame₁ hm0 c (hsame ▸ hc))
    · exact hsat hnext m hm

theorem processNode_spec {next : ℕ} {s : FixpointState χ}
    (hvisited : (s.cacheStates next).isSome) :
    ∃ s', I.processNode next s = .ok s' ∧ Extends s s' ∧
      (next ∉ s'.worklist → ∀ n ∈ I.adjacentNodes next, I.Satisfied s' next n) :=
  foldlM_processNeighbour_spec _ hvisited

theorem Invariant.step {s : FixpointState χ} (h : I.Invariant s) {next : ℕ}
    (hnext : front s = some next) :
    ∃ s', I.processNode next { s with worklist := s.worklist.erase next } = .ok s' ∧
      I.Invariant s' := by
  obtain ⟨hmem, _⟩ := front_eq_some hnext
  obtain ⟨s', hs', hext, hsat⟩ := processNode_spec (I := I)
    (s := { s with worklist := s.worklist.erase next }) (h.visited next hmem)
  refine ⟨s', hs', hext.reaches 0 _ h.start, fun u hu => ?_, fun u hu n hn => ?_⟩
  · rcases hext.fresh u hu with hu | hu
    · exact hext.visited (h.visited u (Finset.mem_of_mem_erase hu))
    · exact hu
  · by_cases hun : u = next
    · subst u
      exact hsat hu n hn
    · refine satisfied_of_extends hext hu (h.satisfied u (fun hmem => hu ?_) n hn)
      exact hext.queued (Finset.mem_erase.mpr ⟨hun, hmem⟩)

/-- When the loop returns, every edge is satisfied. -/
theorem loop_spec (fuel : ℕ) {s : FixpointState χ} (h : I.Invariant s) {states : ℕ → Option χ}
    (hrun : I.loop fuel s = .ok states) :
    ∃ s', s'.cacheStates = states ∧ I.Invariant s' ∧ s'.worklist = ∅ := by
  induction fuel generalizing s with
  | zero => cases hrun
  | succ fuel ih =>
    cases hfront : front s with
    | none =>
      simp only [loop, hfront, Except.ok.injEq] at hrun
      exact ⟨s, hrun, h, front_eq_none hfront⟩
    | some next =>
      obtain ⟨s', hs', hinv⟩ := h.step hfront
      simp only [loop, hfront, hs', ok_bind] at hrun
      exact ih hinv hrun

/-- The result of the analysis is a post-fixpoint that covers all paths. -/
theorem runFixpointAnalysis_covers_paths
    (hmono : ∀ a ty info, Monotone fun c => I.domain.update c a ty info)
    {fuel : ℕ} {states : ℕ → Option χ} (hrun : I.runFixpointAnalysis fuel = .ok states)
    {path : List ℕ} (hpath : I.IsPath path) :
    ∃ stored, states ((0 :: path).getLast (List.cons_ne_nil 0 path)) = some stored ∧
      I.pathState 0 (I.domain.new true) path ≤ stored := by
  obtain ⟨s, rfl, hinv, hempty⟩ := loop_spec fuel invariant_start hrun
  have hsat : ∀ u, ∀ n ∈ I.adjacentNodes u, I.Satisfied s u n := fun u n hn =>
    hinv.satisfied u (hempty ▸ Finset.notMem_empty u) n hn
  exact reaches_pathState hmono hsat path 0 _ hpath hinv.start

/-- Vertex 1 with an edge to itself, entered from vertex 0. -/
def selfLoop : Graph where
  vertices := {0, 1}
  successors u := if u ≤ 1 then [1] else []
  predecessors v := if v = 1 then [0, 1] else []
  sorted_successors u := by split_ifs <;> simp
  sorted_predecessors v := by split_ifs <;> simp
  mem_predecessors u v := by split_ifs <;> simp <;> omega
  mem_vertices u v h := by split_ifs at h <;> simp_all <;> omega

theorem selfLoop_successors {u n : ℕ} (h : n ∈ selfLoop.successors u) : n = 1 := by
  simp only [selfLoop] at h
  split_ifs at h
  · exact List.mem_singleton.mp h
  · cases h

/-- The lines accessed so far, on a loop that accesses one line. -/
def accessedLines : GraphIterator (Finset ℕ) Unit where
  domain := ⟨fun _ => ∅, fun c a _ _ => insert a.interval.lower c⟩
  simpleGraph := selfLoop
  provider := ⟨fun e => if e = (1, 1) then some [.ofAddress 64 (by decide)] else none⟩
  addInfo := none
  backwards := false

theorem runFixpointAnalysis_covers_paths_selfLoop :
    ∃ states, accessedLines.runFixpointAnalysis 5 = .ok states ∧
      ∃ stored, states 1 = some stored ∧ accessedLines.pathState 0 ∅ [1, 1, 1] ≤ stored := by
  have hreturns : (accessedLines.runFixpointAnalysis 5).isOk = true := by decide
  cases hrun : accessedLines.runFixpointAnalysis 5 with
  | error e =>
    rw [hrun] at hreturns
    cases hreturns
  | ok states =>
    refine ⟨states, rfl, ?_⟩
    have hmono : ∀ a ty info, Monotone fun c => accessedLines.domain.update c a ty info :=
      fun a _ _ _ _ hcd => Finset.insert_subset_insert a.interval.lower hcd
    have hpath : accessedLines.IsPath [1, 1, 1] := by
      simp [IsPath, adjacentNodes, Graph.adjacentNodes, Graph.getSuccessors, accessedLines,
        selfLoop]
    exact runFixpointAnalysis_covers_paths hmono hrun hpath

end GraphIterator

end Llvmta
