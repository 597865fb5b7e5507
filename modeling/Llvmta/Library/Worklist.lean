import Mathlib.Data.List.Basic
import Mathlib.Data.List.Nodup
import Mathlib.Logic.Relation
import Mathlib.Tactic

/-!
# Search with a worklist

All nodes that are reachable from a start node are found by visiting a node of the
worklist and putting its successors that are not visited yet onto the worklist. If the
reachable nodes are in a finite list, as many visits as it has entries are enough.
-/

namespace Worklist

variable {α : Type*} [DecidableEq α] (next : α → List α)

/-- A node is put onto the worklist unless it is there or visited. -/
def push (visited : List α) (worklist : List α) (a : α) : List α :=
  if a ∈ visited ∨ a ∈ worklist then worklist else worklist ++ [a]

/-- The visited nodes after the worklist has become empty. -/
def explore : ℕ → List α → List α → List α
  | _, [], visited => visited
  | 0, _ :: _, visited => visited
  | fuel + 1, a :: worklist, visited =>
    explore fuel ((next a).foldl (push (a :: visited)) worklist) (a :: visited)

/-- One node can be reached from another. -/
def Reaches : α → α → Prop := Relation.ReflTransGen fun a b => b ∈ next a

variable {next}

theorem mem_foldl_push {visited successors worklist : List α} {b : α} :
    b ∈ successors.foldl (push visited) worklist ↔
      b ∈ worklist ∨ b ∈ successors ∧ b ∉ visited := by
  induction successors generalizing worklist with
  | nil => simp
  | cons a successors ih =>
    rw [List.foldl_cons, ih]
    unfold push
    split_ifs with ha
    · rcases ha with hvisited | hworklist
      · aesop
      · aesop
    · aesop

theorem nodup_foldl_push {visited successors worklist : List α}
    (h : (worklist ++ visited).Nodup) :
    (successors.foldl (push visited) worklist ++ visited).Nodup := by
  induction successors generalizing worklist with
  | nil => exact h
  | cons a successors ih =>
    rw [List.foldl_cons]
    apply ih
    unfold push
    split_ifs with ha
    · exact h
    · have hperm : (worklist ++ [a] ++ visited).Perm (a :: (worklist ++ visited)) := by
        rw [List.append_assoc]
        exact List.perm_middle
      rw [hperm.nodup_iff, List.nodup_cons, List.mem_append]
      exact ⟨fun hmem => ha hmem.symm, h⟩

/-- What holds in each round of the search. -/
structure Invariant (next : α → List α) (start : α) (worklist visited : List α) : Prop where
  nodup : (worklist ++ visited).Nodup
  reaches : ∀ a ∈ worklist ++ visited, Reaches next start a
  start_mem : start ∈ worklist ++ visited
  closed : ∀ a ∈ visited, ∀ b ∈ next a, b ∈ worklist ++ visited

omit [DecidableEq α] in
theorem Invariant.init (start : α) : Invariant next start [start] [] where
  nodup := by simp
  reaches a ha := by
    rw [List.append_nil, List.mem_singleton] at ha
    rw [ha]
    exact .refl
  start_mem := by simp
  closed a ha := by simp at ha

theorem Invariant.step {start a : α} {worklist visited : List α}
    (h : Invariant next start (a :: worklist) visited) :
    Invariant next start ((next a).foldl (push (a :: visited)) worklist) (a :: visited) := by
  have hperm : (worklist ++ a :: visited).Perm (a :: worklist ++ visited) := List.perm_middle
  have hmem : ∀ b, b ∈ a :: worklist ++ visited →
      b ∈ (next a).foldl (push (a :: visited)) worklist ++ a :: visited := by
    intro b hb
    rw [List.mem_append, mem_foldl_push]
    rcases List.mem_append.mp (hperm.mem_iff.mpr hb) with hworklist | hvisited
    · exact .inl (.inl hworklist)
    · exact .inr hvisited
  constructor
  · apply nodup_foldl_push
    exact hperm.nodup_iff.mpr h.nodup
  · intro b hb
    rw [List.mem_append, mem_foldl_push] at hb
    rcases hb with (hworklist | ⟨hnext, _⟩) | hvisited
    · exact h.reaches b (by simp [hworklist])
    · exact (h.reaches a (by simp)).tail hnext
    · exact h.reaches b (hperm.mem_iff.mp (List.mem_append_right _ hvisited))
  · exact hmem start h.start_mem
  · intro b hb c hc
    rcases List.mem_cons.mp hb with rfl | hvisited
    · rw [List.mem_append, mem_foldl_push]
      by_cases hc' : c ∈ b :: visited
      · exact .inr hc'
      · exact .inl (.inr ⟨hc, hc'⟩)
    · exact hmem c (h.closed b hvisited c hc)

omit [DecidableEq α] in
/-- Nothing else is reachable when the worklist is empty. -/
theorem Invariant.mem_iff {start b : α} {visited : List α} (h : Invariant next start [] visited) :
    b ∈ visited ↔ Reaches next start b := by
  constructor
  · exact h.reaches b
  · intro hreach
    induction hreach with
    | refl => exact h.start_mem
    | tail _ hnext ih => exact h.closed _ ih _ hnext

theorem Invariant.explore {start b : α} {nodes : List α}
    (hnodes : ∀ a, Reaches next start a → a ∈ nodes) {fuel : ℕ} {worklist visited : List α}
    (h : Invariant next start worklist visited) (hfuel : nodes.length ≤ fuel + visited.length) :
    b ∈ explore next fuel worklist visited ↔ Reaches next start b := by
  induction fuel generalizing worklist visited with
  | zero =>
    cases worklist with
    | nil => exact h.mem_iff
    | cons a worklist =>
      have hsub : (a :: worklist ++ visited) ⊆ nodes := fun c hc => hnodes c (h.reaches c hc)
      have hle := (h.nodup.subperm hsub).length_le
      simp only [List.cons_append, List.length_cons, List.length_append] at hle
      omega
  | succ fuel ih =>
    cases worklist with
    | nil => exact h.mem_iff
    | cons a worklist =>
      apply ih h.step
      rw [List.length_cons]
      omega

/-- The search finds exactly the nodes that are reachable. -/
theorem mem_explore_iff {start b : α} {nodes : List α}
    (hnodes : ∀ a, Reaches next start a → a ∈ nodes) :
    b ∈ explore next nodes.length [start] [] ↔ Reaches next start b :=
  (Invariant.init start).explore hnodes le_rfl

/-- Nothing is added to the worklist if each node leads to itself only. -/
theorem mem_of_mem_explore (hnext : ∀ a, ∀ b ∈ next a, b = a) {b : α} {fuel : ℕ}
    {worklist visited : List α} (h : b ∈ explore next fuel worklist visited) :
    b ∈ worklist ∨ b ∈ visited := by
  induction fuel generalizing worklist visited with
  | zero =>
    cases worklist with
    | nil => exact .inr (by simpa [explore] using h)
    | cons a worklist => exact .inr (by simpa [explore] using h)
  | succ fuel ih =>
    cases worklist with
    | nil => exact .inr (by simpa [explore] using h)
    | cons a worklist =>
      rcases ih (by simpa only [explore] using h) with hmem | hmem
      · rcases mem_foldl_push.mp hmem with hworklist | ⟨hb, hvisited⟩
        · exact .inl (List.mem_cons_of_mem _ hworklist)
        · exact absurd (hnext a b hb) fun heq => hvisited (by simp [heq])
      · rcases List.mem_cons.mp hmem with rfl | hvisited
        · exact .inl (by simp)
        · exact .inr hvisited

end Worklist
