import Llvmta.AnalysisFramework.GraphIteratorSoundness
import Llvmta.Library.LeastFirst
import Mathlib.Data.Set.Finite.Basic

/-!
# When the fixpoint iteration terminates

A vertex is queued whenever the state that reaches it differs from the stored
one, also if the stored one is the greater of them and does not change. Rounds
that enlarge a stored state are finitely many. The iteration goes on forever
exactly if it comes to a vertex from where only such useless differences are
met, and which is queued again over vertices that are no greater than itself:
greater vertices, whose states might help, are not taken any more.
-/

namespace Llvmta

open Checked Relation LeastFirst

namespace GraphIterator

section Definitions

variable {χ ι : Type} (I : GraphIterator χ ι)

/-- The edge from `u` to `n` queues `n` again: what it hands on differs from what is stored. -/
def Requeues (s : FixpointState χ) (u n : ℕ) : Prop :=
  n ∈ I.adjacentNodes u ∧ n ≠ 0 ∧
    ∃ c stored, s.cacheStates u = some c ∧ s.cacheStates n = some stored ∧
      I.applyEdge u n c ≠ stored

theorem requeues_congr {s s' : FixpointState χ} (h : s'.cacheStates = s.cacheStates) :
    I.Requeues s' = I.Requeues s := by
  funext u n
  simp only [Requeues, h]

variable [SemilatticeSup χ]

theorem satisfied_congr {s s' : FixpointState χ} (h : s'.cacheStates = s.cacheStates) (u n : ℕ) :
    I.Satisfied s' u n ↔ I.Satisfied s u n := by
  simp only [Satisfied, Reaches, h]

/-- The vertex `next` is queued again over vertices that are no greater, and no
edge from a vertex that is queued on the way enlarges a stored state. -/
def Trapped (s : FixpointState χ) (next : ℕ) : Prop :=
  TransGen (Upto (I.Requeues s) next) next next ∧
    ∀ v, ReflTransGen (Upto (I.Requeues s) next) next v →
      ∀ n ∈ I.adjacentNodes v, I.Satisfied s v n

/-- The states that updates and joins lead to from the empty cache. -/
inductive ReachableState : χ → Prop
  | new : ReachableState (I.domain.new true)
  | update {c : χ} (u n : ℕ) : ReachableState c → ReachableState (I.applyEdge u n c)
  | join {c d : χ} : ReachableState c → ReachableState d → ReachableState (c ⊔ d)

variable [DecidableEq χ]

/-- One round of the loop. -/
def Round (s s' : FixpointState χ) : Prop :=
  ∃ next, front s = some next ∧
    I.processNode next { s with worklist := s.worklist.erase next } = .ok s'

/-- The states at the beginning of the rounds. -/
def Reached (s : FixpointState χ) : Prop := ReflTransGen I.Round I.start s

def Terminates : Prop := ∃ fuel states, I.runFixpointAnalysis fuel = .ok states

/-- A measure that every round decreases. -/
def DecreasingMeasure : Prop :=
  ∃ μ : FixpointState χ → ℕ, ∀ s s', I.Reached s → I.Round s s' → μ s' < μ s

end Definitions

section Worklist

variable {χ ι : Type} [SemilatticeSup χ] [DecidableEq χ] {I : GraphIterator χ ι}

/-! ## Rounds that change no stored state -/

/-- What an edge with a satisfied target does: it may queue the target. -/
theorem propagate_of_reaches {s : FixpointState χ} {n : ℕ} {c : χ} (h : Reaches s n c) :
    (propagate s n c).cacheStates = s.cacheStates ∧
      ∀ v, v ∈ (propagate s n c).worklist ↔
        v ∈ s.worklist ∨ v = n ∧ ∃ stored, s.cacheStates n = some stored ∧ c ≠ stored := by
  obtain ⟨stored, hstored, hle⟩ := h
  unfold propagate
  rw [hstored]
  by_cases hc : c = stored
  · simp [hc]
  · simp only [hc, if_false, store, sup_of_le_left hle]
    refine ⟨Function.update_eq_self_iff.mpr hstored.symm, fun v => ?_⟩
    simp only [Finset.mem_insert, Option.some.injEq, exists_eq_left', ne_eq, hc,
      not_false_eq_true, and_true]
    exact or_comm

theorem processNeighbour_of_satisfied {next n : ℕ} {s : FixpointState χ}
    (hvisited : (s.cacheStates next).isSome) (hn : n ∈ I.adjacentNodes next)
    (hsat : I.Satisfied s next n) :
    ∃ s', I.processNeighbour next s n = .ok s' ∧ s'.cacheStates = s.cacheStates ∧
      ∀ v, v ∈ s'.worklist ↔ v ∈ s.worklist ∨ v = n ∧ I.Requeues s next v := by
  obtain ⟨c, hc⟩ := Option.isSome_iff_exists.mp hvisited
  by_cases hn0 : n = 0
  · subst n
    refine ⟨s, processNeighbour_zero next s, rfl, fun v => ?_⟩
    simp only [Requeues]
    tauto
  · obtain ⟨hstates, hqueue⟩ := propagate_of_reaches (hsat hn0 c hc)
    refine ⟨_, processNeighbour_of_visited hn0 hc, hstates, fun v => (hqueue v).trans ?_⟩
    refine or_congr_right (and_congr_right fun hv => ?_)
    subst v
    simp only [Requeues, hn, hn0, hc, ne_eq, not_false_eq_true, true_and, Option.some.injEq,
      exists_and_left, exists_eq_left']

/-- If all edges are satisfied, the loop over the neighbours only queues. -/
theorem foldlM_of_satisfied {next : ℕ} (nodes : List ℕ) {s : FixpointState χ}
    (hvisited : (s.cacheStates next).isSome) (hnodes : ∀ n ∈ nodes, n ∈ I.adjacentNodes next)
    (hsat : ∀ n ∈ nodes, I.Satisfied s next n) :
    ∃ s', nodes.foldlM (I.processNeighbour next) s = .ok s' ∧
      s'.cacheStates = s.cacheStates ∧
      ∀ v, v ∈ s'.worklist ↔ v ∈ s.worklist ∨ v ∈ nodes ∧ I.Requeues s next v := by
  induction nodes generalizing s with
  | nil => exact ⟨s, rfl, rfl, fun v => by simp⟩
  | cons n nodes ih =>
    obtain ⟨s₁, hs₁, hstates₁, hqueue₁⟩ := processNeighbour_of_satisfied hvisited
      (hnodes n List.mem_cons_self) (hsat n List.mem_cons_self)
    have hrequeues : ∀ v, I.Requeues s₁ next v ↔ I.Requeues s next v := fun v => by
      rw [I.requeues_congr hstates₁]
    obtain ⟨s', hs', hstates, hqueue⟩ := ih (s := s₁) (hstates₁ ▸ hvisited)
      (fun m hm => hnodes m (List.mem_cons_of_mem n hm))
      (fun m hm => (I.satisfied_congr hstates₁ next m).mpr (hsat m (List.mem_cons_of_mem n hm)))
    refine ⟨s', by rw [List.foldlM_cons, hs₁]; exact hs', hstates.trans hstates₁, fun v => ?_⟩
    rw [hqueue, hqueue₁, hrequeues, List.mem_cons]
    tauto

/-- Such a round is a step of the worklist alone. -/
theorem round_of_satisfied {s : FixpointState χ} {next : ℕ} (hinv : I.Invariant s)
    (hnext : front s = some next) (hsat : ∀ n ∈ I.adjacentNodes next, I.Satisfied s next n) :
    ∃ s', I.processNode next { s with worklist := s.worklist.erase next } = .ok s' ∧
      s'.cacheStates = s.cacheStates ∧
      Step (I.Requeues s) s.worklist s'.worklist next := by
  obtain ⟨hmem, hleast⟩ := front_eq_some hnext
  obtain ⟨s', hs', hstates, hqueue⟩ := foldlM_of_satisfied (I.adjacentNodes next)
    (s := { s with worklist := s.worklist.erase next }) (hinv.visited next hmem)
    (fun n hn => hn) hsat
  refine ⟨s', hs', hstates, hmem, hleast, fun v => ?_⟩
  have hrequeues : I.Requeues { s with worklist := s.worklist.erase next } next v ↔
      I.Requeues s next v := Iff.rfl
  rw [hqueue, hrequeues, Finset.mem_erase, and_comm (a := v ≠ next)]
  refine or_congr_right ⟨And.right, fun h => ⟨h.1, h⟩⟩

/-! ## Reached states -/

theorem invariant_of_reached {s : FixpointState χ} (h : I.Reached s) : I.Invariant s := by
  induction h with
  | refl => exact invariant_start
  | tail _ hround ih =>
    obtain ⟨next, hnext, hs'⟩ := hround
    obtain ⟨t, ht, hinv⟩ := ih.step hnext
    rw [hs', Except.ok.injEq] at ht
    exact ht ▸ hinv

theorem loop_of_round {s s' : FixpointState χ} (h : I.Round s s') (fuel : ℕ) :
    I.loop (fuel + 1) s = I.loop fuel s' := by
  obtain ⟨next, hnext, hs'⟩ := h
  simp only [loop, hnext, hs', ok_bind]

/-- Returning from a state that is reached, and from the start, is the same. -/
theorem terminates_iff {s : FixpointState χ} (h : I.Reached s) :
    I.Terminates ↔ ∃ fuel states, I.loop fuel s = .ok states := by
  induction h with
  | refl => rfl
  | @tail t u _ hround ih =>
    rw [ih]
    constructor
    · rintro ⟨fuel, states, hloop⟩
      cases fuel with
      | zero => cases hloop
      | succ fuel => exact ⟨fuel, states, (loop_of_round hround fuel).symm.trans hloop⟩
    · rintro ⟨fuel, states, hloop⟩
      exact ⟨fuel + 1, states, (loop_of_round hround fuel).trans hloop⟩

/-- The least number of rounds after which the loop returns. -/
noncomputable def roundsLeft (I : GraphIterator χ ι) (s : FixpointState χ) : ℕ :=
  sInf {fuel | ∃ states, I.loop fuel s = .ok states}

theorem roundsLeft_le {s : FixpointState χ} {fuel : ℕ} {states : ℕ → Option χ}
    (h : I.loop fuel s = .ok states) : I.roundsLeft s ≤ fuel := by
  apply Nat.sInf_le
  exact ⟨states, h⟩

theorem loop_roundsLeft {s : FixpointState χ} (h : ∃ fuel states, I.loop fuel s = .ok states) :
    ∃ states, I.loop (I.roundsLeft s) s = .ok states :=
  Nat.sInf_mem (s := {fuel | ∃ states, I.loop fuel s = .ok states}) h

/-- The number of rounds that are left is a measure. -/
theorem decreasingMeasure_of_terminates (h : I.Terminates) : I.DecreasingMeasure := by
  refine ⟨I.roundsLeft, fun s s' hs hround => ?_⟩
  obtain ⟨states, hloop⟩ := loop_roundsLeft ((terminates_iff hs).mp h)
  cases hfuel : I.roundsLeft s with
  | zero =>
    rw [hfuel] at hloop
    cases hloop
  | succ fuel =>
    rw [hfuel, loop_of_round hround] at hloop
    exact Nat.lt_succ_of_le (roundsLeft_le hloop)

/-! ## A trap is not left -/

/-- Once a vertex is trapped, the loop never returns. -/
theorem loop_ne_ok_of_trapped {s₀ : FixpointState χ} {t : ℕ} (htrap : I.Trapped s₀ t) (fuel : ℕ)
    {s : FixpointState χ} (hinv : I.Invariant s) (hstates : s.cacheStates = s₀.cacheStates)
    (hcaught : Caught (I.Requeues s₀) t s.worklist) (states : ℕ → Option χ) :
    I.loop fuel s ≠ .ok states := by
  induction fuel generalizing s with
  | zero =>
    intro h
    cases h
  | succ fuel ih =>
    cases hfront : front s with
    | none =>
      obtain ⟨w, hw, _⟩ := hcaught.pending
      exact absurd hw (front_eq_none hfront ▸ Finset.notMem_empty w)
    | some next =>
      obtain ⟨hmem, hleast⟩ := front_eq_some hfront
      have hsat : ∀ n ∈ I.adjacentNodes next, I.Satisfied s next n := fun n hn =>
        (I.satisfied_congr hstates next n).mpr
          (htrap.2 next (hcaught.reached_least hmem hleast) n hn)
      obtain ⟨s', hs', hstates', hstep⟩ := round_of_satisfied hinv hfront hsat
      obtain ⟨t', ht', hinv'⟩ := hinv.step hfront
      rw [hs', Except.ok.injEq] at ht'
      rw [I.requeues_congr hstates] at hstep
      rw [loop_of_round ⟨next, hfront, hs'⟩]
      exact ih (ht' ▸ hinv') (hstates'.trans hstates) (hcaught.step htrap.1 hstep)

/-- A trapped vertex at the front of the worklist keeps the loop from returning. -/
theorem not_terminates_of_trapped {s : FixpointState χ} {next : ℕ} (hs : I.Reached s)
    (hfront : front s = some next) (htrap : I.Trapped s next) : ¬ I.Terminates := by
  intro hterm
  obtain ⟨fuel, states, hloop⟩ := (terminates_iff hs).mp hterm
  have hinv := invariant_of_reached hs
  have hsat : ∀ n ∈ I.adjacentNodes next, I.Satisfied s next n :=
    htrap.2 next ReflTransGen.refl
  obtain ⟨_, _, _, hstep⟩ := round_of_satisfied hinv hfront hsat
  exact loop_ne_ok_of_trapped htrap fuel hinv rfl hstep.caught_self states hloop

end Worklist

/-! ## Rounds that enlarge a stored state -/

section Growth

variable {χ ι : Type} [SemilatticeSup χ] {I : GraphIterator χ ι}

/-- The stored states come from the empty cache, and belong to vertices of the graph. -/
structure StatesIn (I : GraphIterator χ ι) (s : FixpointState χ) : Prop where
  state : ∀ v c, s.cacheStates v = some c → I.ReachableState c
  vertex : ∀ v, (s.cacheStates v).isSome → v ∈ insert 0 I.simpleGraph.vertices

theorem StatesIn.store {s : FixpointState χ} (h : I.StatesIn s) {n : ℕ} {c : χ}
    (hn : n ∈ insert 0 I.simpleGraph.vertices) (hc : I.ReachableState c) :
    I.StatesIn (store s n c) where
  state v d hd := by
    by_cases hv : v = n
    · subst v
      simp only [GraphIterator.store, Function.update_self, Option.some.injEq] at hd
      exact hd ▸ hc
    · simp only [GraphIterator.store, Function.update_of_ne hv] at hd
      exact h.state v d hd
  vertex v hsome := by
    by_cases hv : v = n
    · exact hv ▸ hn
    · simp only [GraphIterator.store, Function.update_of_ne hv] at hsome
      exact h.vertex v hsome

open Classical in
/-- How often a stored state can still grow within `R`. -/
noncomputable def slack (R : Finset χ) : Option χ → ℕ
  | none => R.card + 1
  | some c => (R.filter fun d => c < d).card

/-- How often the stored states can still grow. -/
noncomputable def potential (I : GraphIterator χ ι) (R : Finset χ) (s : FixpointState χ) : ℕ :=
  ∑ v ∈ insert 0 I.simpleGraph.vertices, slack R (s.cacheStates v)

theorem slack_some_lt (R : Finset χ) (c : χ) : slack R (some c) < slack R none := by
  classical
  exact Nat.lt_succ_of_le (Finset.card_filter_le _ _)

theorem slack_lt_slack {R : Finset χ} {c d : χ} (hd : d ∈ R) (hlt : c < d) :
    slack R (some d) < slack R (some c) := by
  classical
  refine Finset.card_lt_card ((Finset.ssubset_iff_of_subset ?_).mpr ⟨d, ?_, ?_⟩)
  · exact Finset.monotone_filter_right R fun e _ he => hlt.trans he
  · exact Finset.mem_filter.mpr ⟨hd, hlt⟩
  · simp

theorem potential_store_lt {R : Finset χ} {s : FixpointState χ} {n : ℕ} {c : χ}
    (hn : n ∈ insert 0 I.simpleGraph.vertices)
    (hlt : slack R (some c) < slack R (s.cacheStates n)) :
    I.potential R (store s n c) < I.potential R s := by
  refine Finset.sum_lt_sum (fun v _ => ?_) ⟨n, hn, by simpa [store] using hlt⟩
  by_cases hv : v = n
  · subst v
    simpa [store] using hlt.le
  · simp [store, hv]

theorem statesIn_start : I.StatesIn I.start where
  state v c h := by
    by_cases hv : v = 0
    · subst v
      simp only [GraphIterator.start, Function.update_self, Option.some.injEq] at h
      exact h ▸ .new
    · simp [GraphIterator.start, hv] at h
  vertex v h := by
    by_cases hv : v = 0
    · subst v
      exact Finset.mem_insert_self 0 _
    · simp [GraphIterator.start, hv] at h

theorem potential_congr {R : Finset χ} {s s' : FixpointState χ}
    (h : s'.cacheStates = s.cacheStates) : I.potential R s' = I.potential R s := by
  simp only [potential, h]

theorem StatesIn.congr {s s' : FixpointState χ} (hs : I.StatesIn s)
    (h : s'.cacheStates = s.cacheStates) : I.StatesIn s' :=
  ⟨h ▸ hs.state, h ▸ hs.vertex⟩

variable [DecidableEq χ] {R : Finset χ} (hR : ∀ c, I.ReachableState c → c ∈ R)

include hR

/-- A state that reaches a vertex enlarges what is stored or was below it. -/
theorem propagate_cases {s : FixpointState χ} (hs : I.StatesIn s) {n : ℕ} {c : χ}
    (hn : n ∈ insert 0 I.simpleGraph.vertices) (hc : I.ReachableState c) :
    I.StatesIn (propagate s n c) ∧
      (I.potential R (propagate s n c) < I.potential R s ∨ Reaches s n c) := by
  unfold propagate
  split
  · rename_i hnone
    exact ⟨hs.store hn hc, Or.inl (potential_store_lt hn (hnone ▸ slack_some_lt R c))⟩
  · rename_i stored hstored
    split_ifs with heq
    · exact ⟨hs, Or.inr ⟨stored, hstored, heq.le⟩⟩
    · have hjoin : I.ReachableState (stored ⊔ c) := .join (hs.state n stored hstored) hc
      refine ⟨hs.store hn hjoin, ?_⟩
      by_cases hle : c ≤ stored
      · exact Or.inr ⟨stored, hstored, hle⟩
      · have hlt : stored < stored ⊔ c := left_lt_sup.mpr hle
        exact Or.inl (potential_store_lt hn (hstored ▸ slack_lt_slack (hR _ hjoin) hlt))

theorem processNeighbour_cases {next n : ℕ} {s : FixpointState χ}
    (hvisited : (s.cacheStates next).isSome) (hn : n ∈ I.adjacentNodes next)
    (hs : I.StatesIn s) :
    ∃ s', I.processNeighbour next s n = .ok s' ∧ I.StatesIn s' ∧
      (I.potential R s' < I.potential R s ∨
        s'.cacheStates = s.cacheStates ∧ I.Satisfied s next n) := by
  by_cases hsat : I.Satisfied s next n
  · obtain ⟨s', hs', hstates, _⟩ := processNeighbour_of_satisfied hvisited hn hsat
    exact ⟨s', hs', hs.congr hstates, Or.inr ⟨hstates, hsat⟩⟩
  · obtain ⟨c, hc⟩ := Option.isSome_iff_exists.mp hvisited
    obtain ⟨hn0, d, hd, hnot⟩ : n ≠ 0 ∧ ∃ d, s.cacheStates next = some d ∧
        ¬ Reaches s n (I.applyEdge next n d) := by
      simpa only [Satisfied, not_forall, exists_prop] using hsat
    obtain ⟨hs', hcases⟩ := propagate_cases hR hs
      (Finset.mem_insert_of_mem (I.simpleGraph.mem_vertices_of_adjacent hn)) (.update next n (hs.state next d hd))
    exact ⟨_, processNeighbour_of_visited hn0 hd, hs', Or.inl (hcases.resolve_right hnot)⟩

/-- The loop over the neighbours enlarges a stored state or all its edges are satisfied. -/
theorem foldlM_cases {next : ℕ} (nodes : List ℕ) {s : FixpointState χ}
    (hvisited : (s.cacheStates next).isSome) (hnodes : ∀ n ∈ nodes, n ∈ I.adjacentNodes next)
    (hs : I.StatesIn s) :
    ∃ s', nodes.foldlM (I.processNeighbour next) s = .ok s' ∧ I.StatesIn s' ∧
      (I.potential R s' < I.potential R s ∨
        s'.cacheStates = s.cacheStates ∧ ∀ n ∈ nodes, I.Satisfied s next n) := by
  induction nodes generalizing s with
  | nil => exact ⟨s, rfl, hs, Or.inr ⟨rfl, fun n hn => absurd hn List.not_mem_nil⟩⟩
  | cons n nodes ih =>
    obtain ⟨s₁, hs₁, hin₁, hcases₁⟩ :=
      processNeighbour_cases hR hvisited (hnodes n List.mem_cons_self) hs
    have hvisited₁ : (s₁.cacheStates next).isSome := by
      obtain ⟨t, ht, hext, _⟩ := processNeighbour_spec (I := I) (n := n) hvisited
      rw [hs₁, Except.ok.injEq] at ht
      exact ht ▸ hext.visited hvisited
    obtain ⟨s', hs', hin, hcases⟩ :=
      ih hvisited₁ (fun m hm => hnodes m (List.mem_cons_of_mem n hm)) hin₁
    refine ⟨s', by rw [List.foldlM_cons, hs₁]; exact hs', hin, ?_⟩
    have hle : I.potential R s' ≤ I.potential R s₁ := by
      rcases hcases with h | h
      · exact h.le
      · exact (potential_congr h.1).le
    rcases hcases₁ with hlt | ⟨hsame, hsat⟩
    · exact Or.inl (hle.trans_lt hlt)
    · rw [potential_congr hsame] at hcases
      refine hcases.imp_right fun h => ⟨h.1.trans hsame, fun m hm => ?_⟩
      rcases List.mem_cons.mp hm with rfl | hm
      · exact hsat
      · exact (I.satisfied_congr hsame next m).mp (h.2 m hm)

/-- A round enlarges a stored state or only takes a step of the worklist. -/
theorem Round.cases {s s' : FixpointState χ} (hround : I.Round s s') (hinv : I.Invariant s)
    (hs : I.StatesIn s) :
    I.StatesIn s' ∧ ∃ next, front s = some next ∧
      (I.potential R s' < I.potential R s ∨
        s'.cacheStates = s.cacheStates ∧ (∀ n ∈ I.adjacentNodes next, I.Satisfied s next n) ∧
          Step (I.Requeues s) s.worklist s'.worklist next) := by
  obtain ⟨next, hnext, hs'⟩ := hround
  obtain ⟨hmem, _⟩ := front_eq_some hnext
  obtain ⟨t, ht, hin, hcases⟩ := foldlM_cases hR (I.adjacentNodes next)
    (s := { s with worklist := s.worklist.erase next }) (hinv.visited next hmem)
    (fun n hn => hn) (hs.congr rfl)
  rw [processNode, ht, Except.ok.injEq] at hs'
  subst t
  refine ⟨hin, next, hnext, hcases.imp_right fun ⟨_, hsat⟩ => ?_⟩
  obtain ⟨u, hu, hstates, hstep⟩ := round_of_satisfied hinv hnext hsat
  rw [processNode, ht, Except.ok.injEq] at hu
  exact ⟨hu ▸ hstates, hsat, hu ▸ hstep⟩

theorem statesIn_of_reached {s : FixpointState χ} (h : I.Reached s) : I.StatesIn s := by
  induction h with
  | refl => exact statesIn_start
  | tail hreached hround ih => exact (hround.cases hR (invariant_of_reached hreached) ih).1

end Growth

section Main

variable {χ ι : Type} [SemilatticeSup χ] [DecidableEq χ] {I : GraphIterator χ ι}

/-- An iteration that does not return goes on forever. -/
theorem exists_run (h : ¬ I.Terminates) :
    ∃ σ : ℕ → FixpointState χ, (∀ k, I.Reached (σ k)) ∧ ∀ k, I.Round (σ k) (σ (k + 1)) := by
  have hnext : ∀ s : {s // I.Reached s}, ∃ s' : {s // I.Reached s}, I.Round s.1 s'.1 := by
    rintro ⟨s, hs⟩
    cases hfront : front s with
    | none => exact absurd ((terminates_iff hs).mpr ⟨1, s.cacheStates, by simp [loop, hfront]⟩) h
    | some next =>
      obtain ⟨s', hs', _⟩ := (invariant_of_reached hs).step hfront
      exact ⟨⟨s', hs.tail ⟨next, hfront, hs'⟩⟩, next, hfront, hs'⟩
  choose f hf using hnext
  refine ⟨fun k => (f^[k] ⟨I.start, ReflTransGen.refl⟩).1, fun k => (f^[k] _).2, fun k => ?_⟩
  simp only [Function.iterate_succ_apply']
  exact hf _

/-- From some round on, an endless iteration changes no stored state. -/
theorem exists_stable {R : Finset χ} (hR : ∀ c, I.ReachableState c → c ∈ R)
    {σ : ℕ → FixpointState χ} (hreached : ∀ k, I.Reached (σ k))
    (hround : ∀ k, I.Round (σ k) (σ (k + 1))) :
    ∃ T, ∀ k, T ≤ k → ∃ next, front (σ k) = some next ∧
      (σ (k + 1)).cacheStates = (σ k).cacheStates ∧
      (∀ n ∈ I.adjacentNodes next, I.Satisfied (σ k) next n) ∧
      Step (I.Requeues (σ k)) (σ k).worklist (σ (k + 1)).worklist next := by
  have hcases := fun k => ((hround k).cases hR (invariant_of_reached (hreached k))
    (statesIn_of_reached hR (hreached k))).2
  have hanti : Antitone fun k => I.potential R (σ k) := by
    refine antitone_nat_of_succ_le fun k => ?_
    obtain ⟨next, _, h | ⟨h, _⟩⟩ := hcases k
    · exact h.le
    · exact (potential_congr h).le
  obtain ⟨T, hT⟩ := WellFoundedLT.antitone_chain_condition hanti
  refine ⟨T, fun k hk => ?_⟩
  obtain ⟨next, hnext, hlt | h⟩ := hcases k
  · have hsame := (hT k hk).symm.trans (hT (k + 1) (Nat.le_succ_of_le hk))
    exact absurd hlt hsame.symm.not_lt
  · exact ⟨next, hnext, h⟩

/-- An endless iteration runs into a trap. -/
theorem exists_trapped (hfin : {c | I.ReachableState c}.Finite) (h : ¬ I.Terminates) :
    ∃ s next, I.Reached s ∧ front s = some next ∧ I.Trapped s next := by
  have hR : ∀ c, I.ReachableState c → c ∈ hfin.toFinset := fun c hc => hfin.mem_toFinset.mpr hc
  obtain ⟨σ, hreached, hround⟩ := exists_run h
  obtain ⟨T, hstable⟩ := exists_stable hR hreached hround
  choose p hfront hsame hsat hstep using fun k => hstable (T + k) (Nat.le_add_right T k)
  have hstates : ∀ k, (σ (T + k)).cacheStates = (σ T).cacheStates := by
    intro k
    induction k with
    | zero => rfl
    | succ k ih => exact (hsame k).trans ih
  have hstep' : ∀ k, Step (I.Requeues (σ T)) (σ (T + k)).worklist (σ (T + (k + 1))).worklist (p k) :=
    fun k => I.requeues_congr (hstates k) ▸ hstep k
  have hbound : ∀ k, p k ≤ (insert 0 I.simpleGraph.vertices).sup id := fun k => by
    have hmem : p k ∈ (σ (T + k)).worklist := (front_eq_some (hfront k)).1
    have hvisited := (invariant_of_reached (hreached (T + k))).visited _ hmem
    exact Finset.le_sup (f := id) ((statesIn_of_reached hR (hreached (T + k))).vertex _ hvisited)
  obtain ⟨k₀, hcycle, htaken⟩ := exists_cycle hstep' hbound
  have hrequeues := I.requeues_congr (hstates k₀)
  refine ⟨σ (T + k₀), p k₀, hreached _, hfront k₀, hrequeues ▸ hcycle, fun v hv n hn => ?_⟩
  obtain ⟨k, _, rfl⟩ := htaken v (hrequeues ▸ hv)
  have hkk₀ : (σ (T + k₀)).cacheStates = (σ (T + k)).cacheStates :=
    (hstates k₀).trans (hstates k).symm
  exact (I.satisfied_congr hkk₀ (p k) n).mpr (hsat k n hn)

/-- The iteration terminates, with a measure that every round decreases, exactly
if no round takes a trapped vertex. -/
theorem terminates_iff_not_trapped (hfin : {c | I.ReachableState c}.Finite) :
    (I.Terminates ∧ I.DecreasingMeasure) ↔
      ∀ s next, I.Reached s → front s = some next → ¬ I.Trapped s next := by
  constructor
  · rintro ⟨hterm, _⟩ s next hs hfront htrap
    exact not_terminates_of_trapped hs hfront htrap hterm
  · intro hfree
    have hterm : I.Terminates := by
      by_contra hnot
      obtain ⟨s, next, hs, hfront, htrap⟩ := exists_trapped hfin hnot
      exact hfree s next hs hfront htrap
    exact ⟨hterm, decreasingMeasure_of_terminates hterm⟩

/-- The blocks, out of one, that may be missing from a direct-mapped set, on a loop
that accesses this block: on entry it may be missing, after the access it is not. -/
def mayBeMissing : GraphIterator (Finset Unit) Unit where
  domain := ⟨fun _ => {()}, fun _ _ _ _ => ∅⟩
  simpleGraph := selfLoop
  provider := accessedLines.provider
  addInfo := none
  backwards := false

theorem terminates_iff_not_trapped_selfLoop :
    (mayBeMissing.Terminates ∧ mayBeMissing.DecreasingMeasure) ↔
      ∀ s next, mayBeMissing.Reached s → front s = some next → ¬ mayBeMissing.Trapped s next :=
  terminates_iff_not_trapped (Set.toFinite _)

/-- The states after the first round: vertex 1 has been visited. -/
def selfLoopEntered : FixpointState (Finset Unit) :=
  propagate { mayBeMissing.start with worklist := ∅ } 1 {()}

theorem selfLoopEntered_reached : mayBeMissing.Reached selfLoopEntered := by
  refine ReflTransGen.single ⟨0, by decide, ?_⟩
  rfl

theorem selfLoopEntered_trapped : mayBeMissing.Trapped selfLoopEntered 1 := by
  have hstate : selfLoopEntered.cacheStates 1 = some {()} := by decide
  have hrequeues : mayBeMissing.Requeues selfLoopEntered 1 1 :=
    ⟨by decide, by decide, {()}, {()}, hstate, hstate, by decide⟩
  refine ⟨TransGen.single ⟨hrequeues, le_rfl⟩, fun v hv n hn => ?_⟩
  have hv1 : v = 1 := by
    rcases hv.cases_tail with hv | ⟨u, _, hstep⟩
    · exact hv
    · exact selfLoop_successors hstep.1.1
  subst v
  have hn1 : n = 1 := selfLoop_successors hn
  subst n
  intro _ c hc
  exact ⟨{()}, hstate, Finset.subset_univ _⟩

/-- The state that comes back along the loop is better than the one stored, which
so is never reproduced: vertex 1 is queued forever. -/
theorem selfLoop_not_terminates :
    (∀ a ty info, Monotone fun c => mayBeMissing.domain.update c a ty info) ∧
      {c | mayBeMissing.ReachableState c}.Finite ∧
        ¬ (mayBeMissing.Terminates ∧ mayBeMissing.DecreasingMeasure) := by
  refine ⟨fun _ _ _ _ _ _ => le_rfl, Set.toFinite _, fun h => ?_⟩
  exact not_terminates_of_trapped selfLoopEntered_reached (by decide) selfLoopEntered_trapped h.1

end Main

end GraphIterator

end Llvmta
