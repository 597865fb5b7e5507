import Llvmta.AnalysisFramework.EdgeEffects
import Llvmta.AnalysisFramework.GraphIteratorSoundness

/-!
# What the stored states say about the walks of a program

A state of the domain stands for a set of concrete states. If each update keeps track of what
an access does to them, the state stored for a vertex stands for all concrete states that lead
there: along the walks from vertex 0, or backwards along those to vertex 0, against the order
of their accesses.
-/

namespace Llvmta

open Checked

/-- The concrete states that accesses lead to. -/
def Steps {κ : Type} (access : AbstractAddress → κ → κ → Prop) :
    List AbstractAddress → κ → κ → Prop
  | [], k, k' => k' = k
  | addr :: accesses, k, k' => ∃ k₁, access addr k k₁ ∧ Steps access accesses k₁ k'

theorem steps_append {κ : Type} {access : AbstractAddress → κ → κ → Prop}
    {accesses accesses' : List AbstractAddress} {k k' : κ} :
    Steps access (accesses ++ accesses') k k' ↔
      ∃ k₁, Steps access accesses k k₁ ∧ Steps access accesses' k₁ k' := by
  induction accesses generalizing k with
  | nil => simp [Steps]
  | cons addr accesses ih =>
    simp only [List.cons_append, Steps, ih]
    constructor
    · rintro ⟨k₁, h₁, k₂, h₂, h⟩
      exact ⟨k₂, ⟨k₁, h₁, h₂⟩, h⟩
    · rintro ⟨k₂, ⟨k₁, h₁, h₂⟩, h⟩
      exact ⟨k₁, h₁, k₂, h₂, h⟩

namespace Graph

variable {G : Graph} {path : List GraphEdge} {edge : GraphEdge} {u v : ℕ}

theorem walk_concat : G.Walk u (path ++ [edge]) v ↔
    G.Walk u path edge.1 ∧ G.hasEdge edge ∧ edge.2 = v := by
  induction path generalizing u with
  | nil =>
    simp only [List.nil_append, Walk]
    exact and_congr_left fun _ => eq_comm
  | cons e path ih =>
    simp only [List.cons_append, Walk, ih, and_assoc]

end Graph

namespace GraphIterator

variable {χ ι κ : Type} {I : GraphIterator χ ι} {path : List GraphEdge} {u v : ℕ}

/-- The addresses accessed along a path, in the direction of the analysis. -/
def pathAddresses (I : GraphIterator χ ι) : ℕ → List ℕ → List AbstractAddress
  | _, [] => []
  | u, n :: path => I.edgeAddresses u n ++ I.pathAddresses n path

/-- The chain of adjacent vertices that the iteration follows from `u` on. -/
def FollowsFrom (I : GraphIterator χ ι) (u : ℕ) (path : List ℕ) : Prop :=
  (u :: path).IsChain fun u n => n ∈ I.adjacentNodes u ∧ n ≠ 0

/-- A walk is followed along its edges. -/
theorem followsFrom_of_walk (hdir : I.backwards = false) (h : I.simpleGraph.Walk u path v)
    (hinner : ∀ edge ∈ path, edge.2 ≠ 0) :
    I.FollowsFrom u (path.map Prod.snd) ∧
    I.pathAddresses u (path.map Prod.snd) = path.flatMap I.provider.addresses ∧
    (u :: path.map Prod.snd).getLast (List.cons_ne_nil _ _) = v := by
  induction path generalizing u with
  | nil => exact ⟨List.isChain_singleton u, rfl, h⟩
  | cons edge path ih =>
    obtain ⟨rfl, hedge, hrest⟩ := h
    obtain ⟨hne, hinner⟩ := List.forall_mem_cons.mp hinner
    obtain ⟨hfollows, haddresses, hlast⟩ := ih hrest hinner
    have hadjacent : edge.2 ∈ I.adjacentNodes edge.1 := by
      rw [adjacentNodes, Graph.adjacentNodes, hdir]
      exact hedge
    have hweight : I.edgeAddresses edge.1 edge.2 = I.provider.addresses edge := by
      rw [edgeAddresses, hdir]
      rfl
    refine ⟨List.isChain_cons_cons.mpr ⟨⟨hadjacent, hne⟩, hfollows⟩, ?_, ?_⟩
    · rw [List.map_cons, pathAddresses, hweight, haddresses, List.flatMap_cons]
    · rw [← hlast]
      rfl

/-- A walk is followed against its edges, from its end on. -/
theorem followsFrom_of_walk_backwards (hdir : I.backwards = true)
    (h : I.simpleGraph.Walk v path u) (hinner : ∀ edge ∈ path, edge.1 ≠ 0) :
    I.FollowsFrom u (path.map Prod.fst).reverse ∧
    I.pathAddresses u (path.map Prod.fst).reverse =
      (path.flatMap I.provider.addresses).reverse ∧
    (u :: (path.map Prod.fst).reverse).getLast (List.cons_ne_nil _ _) = v := by
  induction path using List.reverseRecOn generalizing u with
  | nil => exact ⟨List.isChain_singleton u, rfl, Eq.symm h⟩
  | append_singleton path edge ih =>
    obtain ⟨hwalk, hedge, rfl⟩ := Graph.walk_concat.mp h
    have hne : edge.1 ≠ 0 := hinner edge (by simp)
    obtain ⟨hfollows, haddresses, hlast⟩ := ih hwalk fun e he => hinner e (by simp [he])
    have hadjacent : edge.1 ∈ I.adjacentNodes edge.2 := by
      rw [adjacentNodes, Graph.adjacentNodes, hdir]
      exact Graph.mem_getPredecessors.mpr hedge
    have hweight : I.edgeAddresses edge.2 edge.1 = (I.provider.addresses edge).reverse := by
      rw [edgeAddresses, hdir]
      rfl
    have hlist : ((path ++ [edge]).map Prod.fst).reverse =
        edge.1 :: (path.map Prod.fst).reverse := by simp
    simp only [hlist]
    refine ⟨List.isChain_cons_cons.mpr ⟨⟨hadjacent, hne⟩, hfollows⟩, ?_, ?_⟩
    · rw [pathAddresses, hweight, haddresses, List.flatMap_append, List.reverse_append]
      simp
    · rw [← hlast]
      rfl

variable [SemilatticeSup χ]

/-- `γ` is what the states of the domain stand for, as far as the updates of the edges show. -/
structure Concretizes (I : GraphIterator χ ι) (access : AbstractAddress → κ → κ → Prop)
    (γ : χ → Set κ) : Prop where
  mono : ∀ c d, c ≤ d → γ c ⊆ γ d
  update : ∀ u, ∀ n ∈ I.adjacentNodes u, ∀ addr ∈ I.edgeAddresses u n, ∀ c k k', k ∈ γ c →
    access addr k k' → k' ∈ γ (I.domain.update c addr .load (I.addInfo.map fun info => info n))

variable {access : AbstractAddress → κ → κ → Prop} {γ : χ → Set κ}

theorem Concretizes.applyEdge (h : I.Concretizes access γ) {n : ℕ} (hn : n ∈ I.adjacentNodes u)
    {c : χ} {k k' : κ} (hk : k ∈ γ c) (hsteps : Steps access (I.edgeAddresses u n) k k') :
    k' ∈ γ (I.applyEdge u n c) := by
  have hupdate := h.update u n hn
  unfold GraphIterator.applyEdge
  generalize I.edgeAddresses u n = accesses at hupdate hsteps ⊢
  induction accesses generalizing c k with
  | nil =>
    have heq : k' = k := hsteps
    rwa [heq]
  | cons addr accesses ih =>
    obtain ⟨k₁, h₁, hrest⟩ := hsteps
    have hk₁ := hupdate addr List.mem_cons_self c k k₁ hk h₁
    exact ih hk₁ (fun addr haddr => hupdate addr (List.mem_cons_of_mem _ haddr)) hrest

/-- Satisfied edges carry concrete states along a path. -/
theorem Concretizes.of_satisfied (h : I.Concretizes access γ) {s : FixpointState χ}
    (hsat : ∀ u, ∀ n ∈ I.adjacentNodes u, I.Satisfied s u n) {path : List ℕ}
    (hpath : I.FollowsFrom u path) {stored : χ} {k k' : κ} (hs : s.cacheStates u = some stored)
    (hk : k ∈ γ stored) (hsteps : Steps access (I.pathAddresses u path) k k') :
    ∃ stored', s.cacheStates ((u :: path).getLast (List.cons_ne_nil _ _)) = some stored' ∧
      k' ∈ γ stored' := by
  induction path generalizing u k stored with
  | nil =>
    have heq : k' = k := hsteps
    exact ⟨stored, hs, heq ▸ hk⟩
  | cons n path ih =>
    obtain ⟨⟨hn, hne⟩, hrest⟩ := List.isChain_cons_cons.mp hpath
    obtain ⟨k₁, h₁, hsteps⟩ := steps_append.mp hsteps
    obtain ⟨stored₁, hs₁, hle⟩ := hsat u n hn hne stored hs
    have hk₁ : k₁ ∈ γ stored₁ := h.mono _ _ hle (h.applyEdge hn hk h₁)
    exact ih hrest hs₁ hk₁ hsteps

variable [DecidableEq χ]

/-- A vertex with a state hands it on to its neighbours. -/
def HandsOn (I : GraphIterator χ ι) (states : ℕ → Option χ) : Prop :=
  ∀ u c, states u = some c → ∀ n ∈ I.adjacentNodes u, n ≠ 0 →
    ∃ d, states n = some d ∧ I.applyEdge u n c ≤ d

/-- The edges of the result are satisfied. -/
theorem handsOn_of_run {fuel : ℕ} {states : ℕ → Option χ}
    (hrun : I.runFixpointAnalysis fuel = .ok states) :
    (∃ c, states 0 = some c ∧ I.domain.new true ≤ c) ∧ I.HandsOn states := by
  obtain ⟨s, rfl, hinv, hempty⟩ := loop_spec fuel invariant_start hrun
  refine ⟨hinv.start, fun u c hc n hn hne => ?_⟩
  exact hinv.satisfied u (by simp [hempty]) n hn hne c hc

/-- The stored states stand for what the accesses of a path lead to. -/
theorem Concretizes.of_run (h : I.Concretizes access γ) {fuel : ℕ} {states : ℕ → Option χ}
    (hrun : I.runFixpointAnalysis fuel = .ok states) {path : List ℕ} (hpath : I.FollowsFrom 0 path)
    {k k' : κ} (hk : k ∈ γ (I.domain.new true))
    (hsteps : Steps access (I.pathAddresses 0 path) k k') :
    ∃ stored, states ((0 :: path).getLast (List.cons_ne_nil _ _)) = some stored ∧
      k' ∈ γ stored := by
  obtain ⟨s, rfl, hinv, hempty⟩ := loop_spec fuel invariant_start hrun
  obtain ⟨stored, hs, hle⟩ := hinv.start
  have hsat : ∀ u, ∀ n ∈ I.adjacentNodes u, I.Satisfied s u n := fun u =>
    hinv.satisfied u (by simp [hempty])
  exact h.of_satisfied hsat hpath hs (h.mono _ _ hle hk) hsteps

/-- The state of a vertex stands for what the walks from vertex 0 lead to. -/
theorem Concretizes.of_walk (h : I.Concretizes access γ) (hdir : I.backwards = false) {fuel : ℕ}
    {states : ℕ → Option χ} (hrun : I.runFixpointAnalysis fuel = .ok states)
    (hwalk : I.simpleGraph.Walk 0 path v) (hinner : ∀ edge ∈ path, edge.2 ≠ 0) {k k' : κ}
    (hk : k ∈ γ (I.domain.new true))
    (hsteps : Steps access (path.flatMap I.provider.addresses) k k') :
    ∃ stored, states v = some stored ∧ k' ∈ γ stored := by
  obtain ⟨hpath, haddresses, hlast⟩ := followsFrom_of_walk hdir hwalk hinner
  rw [← haddresses] at hsteps
  rw [← hlast]
  exact h.of_run hrun hpath hk hsteps

/-- The state of a vertex stands for what the walks to vertex 0 lead to in the reverse order. -/
theorem Concretizes.of_walk_backwards (h : I.Concretizes access γ) (hdir : I.backwards = true)
    {fuel : ℕ} {states : ℕ → Option χ} (hrun : I.runFixpointAnalysis fuel = .ok states)
    (hwalk : I.simpleGraph.Walk v path 0) (hinner : ∀ edge ∈ path, edge.1 ≠ 0) {k k' : κ}
    (hk : k ∈ γ (I.domain.new true))
    (hsteps : Steps access (path.flatMap I.provider.addresses).reverse k k') :
    ∃ stored, states v = some stored ∧ k' ∈ γ stored := by
  obtain ⟨hpath, haddresses, hlast⟩ := followsFrom_of_walk_backwards hdir hwalk hinner
  rw [← haddresses] at hsteps
  rw [← hlast]
  exact h.of_run hrun hpath hk hsteps

end GraphIterator

end Llvmta
