import Llvmta.MicroarchitecturalAnalysis.OutOfOrderConservation
import Llvmta.MicroarchitecturalAnalysis.ScopeCounting

/-!
# Speculative scope entrances

The out-of-order pipeline enters scopes when it fetches. What it has entered speculatively
it counts by the element that was to be fetched. This is right as long as no element is
committed that was reached over an edge that enters nothing while an equal element behind it
has entered scopes.
-/

namespace Llvmta.MicroArch.OutOfOrderPipelineState

open Checked ReservationStation

variable {P : Program} {μ : Type} {M : MemoryTopology μ}
  {s s' t : OutOfOrderPipelineState (ScopeCounted μ)} {entrances entrances' : List ScopeEntrance}
  {edge : Option ExecutionElement × ExecutionElement}
  {edges : List (Option ExecutionElement × ExecutionElement)} {element : ExecutionElement}
  {scopes : List PersistenceScope}

/-- The edge enters scopes towards the element. -/
def EntersAt (P : Program) (element : ExecutionElement)
    (edge : Option ExecutionElement × ExecutionElement) : Prop :=
  edge.2 = element ∧ scopesOf P P.getEnteringScopes edge ≠ []

instance (P : Program) (element : ExecutionElement) : DecidablePred (EntersAt P element) :=
  fun _ => inferInstanceAs (Decidable (_ ∧ _))

section Entrances

/-- The entrances of a scope. -/
def totalEntrances (entrances : List ScopeEntrance) (scope : PersistenceScope) : ℕ :=
  (entrances.map fun entrance => entrance.count * entrance.scopes.count scope).sum

/-- An element is new, or it has entered the same scopes before. -/
theorem enterSpeculatively_eq_ok
    (h : enterSpeculatively element scopes entrances = .ok entrances') :
    element ∉ entrances.map ScopeEntrance.element ∧
        entrances' = entrances ++ [⟨element, 1, scopes⟩] ∨
      ∃ front entrance back, entrances = front ++ entrance :: back ∧
        entrance.element = element ∧ entrance.scopes = scopes ∧
        entrances' = front ++ { entrance with count := entrance.count + 1 } :: back := by
  induction entrances generalizing entrances' with
  | nil =>
    cases h
    exact .inl ⟨by simp, rfl⟩
  | cons entrance entrances ih =>
    unfold enterSpeculatively at h
    split at h
    · next heq =>
      obtain ⟨_, hscopes, h⟩ := bind_eq_ok.mp h
      cases h
      have hscopes : scopes = entrance.scopes := of_decide_eq_true (of_assertThat hscopes)
      exact .inr ⟨[], entrance, entrances, rfl, heq, hscopes.symm, rfl⟩
    · next hne =>
      obtain ⟨rest, hrest, h⟩ := bind_eq_ok.mp h
      cases h
      rcases ih hrest with ⟨hnot, rfl⟩ | ⟨front, entrance', back, rfl, heq, hscopes, rfl⟩
      · refine .inl ⟨?_, rfl⟩
        rw [List.map_cons, List.mem_cons, not_or]
        exact ⟨Ne.symm hne, hnot⟩
      · exact .inr ⟨entrance :: front, entrance', back, rfl, heq, hscopes, rfl⟩

theorem commitEntrance_of_not_mem (h : element ∉ entrances.map ScopeEntrance.element) :
    commitEntrance element entrances = entrances := by
  induction entrances with
  | nil => rfl
  | cons entrance entrances ih =>
    rw [List.map_cons, List.mem_cons, not_or] at h
    rw [commitEntrance, if_neg (Ne.symm h.1), ih h.2]

/-- What becomes of an entrance when an element is committed. -/
def committed (entrance : ScopeEntrance) : List ScopeEntrance :=
  if entrance.count - 1 = 0 then [] else [{ entrance with count := entrance.count - 1 }]

theorem commitEntrance_of_mem {entrance : ScopeEntrance} (h : entrance ∈ entrances)
    (hnodup : (entrances.map ScopeEntrance.element).Nodup) :
    ∃ front back, entrances = front ++ entrance :: back ∧
      commitEntrance entrance.element entrances = front ++ committed entrance ++ back := by
  induction entrances with
  | nil => exact nomatch h
  | cons entrance' entrances ih =>
    rw [List.map_cons, List.nodup_cons] at hnodup
    rcases List.mem_cons.mp h with rfl | h
    · refine ⟨[], entrances, rfl, ?_⟩
      rw [commitEntrance, if_pos rfl]
      unfold committed
      split_ifs <;> rfl
    · have hne : entrance'.element ≠ entrance.element := fun heq =>
        hnodup.1 (heq ▸ List.mem_map_of_mem h)
      obtain ⟨front, back, rfl, hcommit⟩ := ih h hnodup.2
      refine ⟨entrance' :: front, back, rfl, ?_⟩
      rw [commitEntrance, if_neg hne, hcommit]
      rfl

variable (P) in
/-- The entrances are those of the edges. -/
structure Tallied (entrances : List ScopeEntrance)
    (edges : List (Option ExecutionElement × ExecutionElement)) : Prop where
  nodup : (entrances.map ScopeEntrance.element).Nodup
  count : ∀ entrance ∈ entrances, 0 < entrance.count ∧
    entrance.count = edges.countP fun edge => EntersAt P entrance.element edge
  scopes : ∀ edge ∈ edges, scopesOf P P.getEnteringScopes edge ≠ [] → ∃ entrance ∈ entrances,
    entrance.element = edge.2 ∧ entrance.scopes = scopesOf P P.getEnteringScopes edge
  total : ∀ scope, totalEntrances entrances scope = tally P P.getEnteringScopes edges scope

theorem tallied_nil : Tallied P [] [] :=
  ⟨by simp, by simp, by simp, fun _ => rfl⟩

/-- An edge that enters nothing does not concern the entrances. -/
theorem Tallied.append_of_nil (h : Tallied P entrances edges)
    (hnil : scopesOf P P.getEnteringScopes edge = []) : Tallied P entrances (edges ++ [edge]) := by
  refine ⟨h.nodup, fun entrance hentrance => ?_, fun edge' hedge' hne => ?_, fun scope => ?_⟩
  · have hnot : ¬ EntersAt P entrance.element edge := fun henters => henters.2 hnil
    rw [List.countP_append, List.countP_singleton, if_neg (by simpa using hnot)]
    exact h.count entrance hentrance
  · rcases List.mem_append.mp hedge' with hedge' | hedge'
    · exact h.scopes edge' hedge' hne
    · cases List.mem_singleton.mp hedge'
      exact absurd hnil hne
  · rw [h.total, tally_append, tally_cons, hnil]
    rfl

theorem Tallied.of_append (hnil : scopesOf P P.getEnteringScopes edge = [])
    (h : Tallied P entrances (edges ++ [edge])) : Tallied P entrances edges := by
  refine ⟨h.nodup, fun entrance hentrance => ?_, fun edge' hedge' => ?_, fun scope => ?_⟩
  · have hnot : ¬ EntersAt P entrance.element edge := fun henters => henters.2 hnil
    obtain ⟨hpos, hcount⟩ := h.count entrance hentrance
    rw [List.countP_append, List.countP_singleton, if_neg (by simpa using hnot)] at hcount
    exact ⟨hpos, hcount⟩
  · exact h.scopes edge' (List.mem_append_left _ hedge')
  · rw [h.total, tally_append, tally_cons, hnil]
    rfl

/-- The elements of the other entrances are different. -/
theorem ne_of_nodup {front back : List ScopeEntrance} {entrance entrance' : ScopeEntrance}
    (hnodup : ((front ++ entrance :: back).map ScopeEntrance.element).Nodup)
    (h : entrance' ∈ front ∨ entrance' ∈ back) : entrance'.element ≠ entrance.element := by
  rw [List.map_append, List.map_cons, List.nodup_middle, List.nodup_cons, ← List.map_append] at hnodup
  intro heq
  apply hnodup.1
  rw [← heq]
  exact List.mem_map_of_mem (List.mem_append.mpr h)

theorem mem_middle {front back : List ScopeEntrance} {entrance entrance' : ScopeEntrance} :
    entrance' ∈ front ++ entrance :: back ↔
      entrance' = entrance ∨ entrance' ∈ front ∨ entrance' ∈ back := by
  simp only [List.mem_append, List.mem_cons]
  tauto

theorem totalEntrances_middle (front back : List ScopeEntrance) (entrance : ScopeEntrance)
    (scope : PersistenceScope) : totalEntrances (front ++ entrance :: back) scope =
      totalEntrances (front ++ back) scope + entrance.count * entrance.scopes.count scope := by
  simp only [totalEntrances, List.map_append, List.map_cons, List.sum_append, List.sum_cons]
  omega

/-- An edge that enters scopes is counted for its target. -/
theorem Tallied.enter (h : Tallied P entrances edges)
    (hne : scopesOf P P.getEnteringScopes edge ≠ [])
    (henter : enterSpeculatively edge.2 (scopesOf P P.getEnteringScopes edge) entrances =
      .ok entrances') : Tallied P entrances' (edges ++ [edge]) := by
  have hself : EntersAt P edge.2 edge := ⟨rfl, hne⟩
  have hother {element : ExecutionElement} (hneq : element ≠ edge.2) : ¬ EntersAt P element edge :=
    fun henters => hneq henters.1.symm
  rcases enterSpeculatively_eq_ok henter with ⟨hnot, rfl⟩ | ⟨front, entrance, back, rfl, heq, hscopes,
    rfl⟩
  · have hnone : edges.countP (fun edge' => EntersAt P edge.2 edge') = 0 := by
      rw [List.countP_eq_zero]
      intro edge' hedge' henters
      obtain ⟨htarget, hne'⟩ := of_decide_eq_true henters
      obtain ⟨entrance, hentrance, helement, _⟩ := h.scopes edge' hedge' hne'
      exact hnot (List.mem_map.mpr ⟨entrance, hentrance, helement.trans htarget⟩)
    refine ⟨?_, fun entrance hentrance => ?_, fun edge' hedge' hne' => ?_, fun scope => ?_⟩
    · rw [List.map_append]
      exact List.nodup_append.mpr ⟨h.nodup, by simp, by
        intro a ha b hb hab
        cases List.mem_singleton.mp hb
        have hab : a = edge.2 := hab
        exact hnot (hab ▸ ha)⟩
    · rw [List.countP_append, List.countP_singleton]
      rcases List.mem_append.mp hentrance with hentrance | hentrance
      · have hneq : entrance.element ≠ edge.2 := fun heq =>
          hnot (heq ▸ List.mem_map_of_mem hentrance)
        rw [if_neg (by simpa using hother hneq)]
        exact h.count entrance hentrance
      · cases List.mem_singleton.mp hentrance
        rw [hnone, if_pos (by simpa using hself)]
        exact ⟨Nat.one_pos, rfl⟩
    · rcases List.mem_append.mp hedge' with hedge' | hedge'
      · obtain ⟨entrance, hentrance, heq⟩ := h.scopes edge' hedge' hne'
        exact ⟨entrance, List.mem_append_left _ hentrance, heq⟩
      · cases List.mem_singleton.mp hedge'
        exact ⟨_, List.mem_append_right _ List.mem_cons_self, rfl, rfl⟩
    · have htotal := h.total scope
      rw [totalEntrances_middle, List.append_nil, htotal, tally_append, tally_cons, tally_nil,
        one_mul, add_zero]
  · refine ⟨?_, fun entrance' hentrance' => ?_, fun edge' hedge' hne' => ?_, fun scope => ?_⟩
    · have hnodup := h.nodup
      simpa using hnodup
    · rw [List.countP_append, List.countP_singleton]
      rcases mem_middle.mp hentrance' with rfl | hentrance'
      · obtain ⟨_, hcount⟩ := h.count entrance (mem_middle.mpr (.inl rfl))
        rw [heq] at hcount ⊢
        rw [if_pos (by simpa using hself)]
        exact ⟨Nat.succ_pos _, congrArg (· + 1) hcount⟩
      · have hneq : entrance'.element ≠ edge.2 := heq ▸ ne_of_nodup h.nodup hentrance'
        rw [if_neg (by simpa using hother hneq)]
        exact h.count entrance' (mem_middle.mpr (.inr hentrance'))
    · have hfound : ∃ entrance' ∈ front ++ entrance :: back, entrance'.element = edge'.2 ∧
          entrance'.scopes = scopesOf P P.getEnteringScopes edge' := by
        rcases List.mem_append.mp hedge' with hedge' | hedge'
        · exact h.scopes edge' hedge' hne'
        · cases List.mem_singleton.mp hedge'
          exact ⟨entrance, mem_middle.mpr (.inl rfl), heq, hscopes⟩
      obtain ⟨entrance', hentrance', helement, hscopes'⟩ := hfound
      rcases mem_middle.mp hentrance' with rfl | hentrance'
      · exact ⟨_, mem_middle.mpr (.inl rfl), helement, hscopes'⟩
      · exact ⟨entrance', mem_middle.mpr (.inr hentrance'), helement, hscopes'⟩
    · have htotal := h.total scope
      rw [totalEntrances_middle] at htotal ⊢
      rw [tally_append, ← htotal, tally_cons, tally_nil, hscopes]
      dsimp only
      ring

/-- The commit of an element ends an entrance if there was one. -/
theorem Tallied.commit (h : Tallied P entrances (edge :: edges))
    (hattributed : scopesOf P P.getEnteringScopes edge = [] →
      ∀ edge' ∈ edges, ¬ EntersAt P edge.2 edge') :
    Tallied P (commitEntrance edge.2 entrances) edges := by
  by_cases hnil : scopesOf P P.getEnteringScopes edge = []
  · have hnot : edge.2 ∉ entrances.map ScopeEntrance.element := by
      intro hmem
      obtain ⟨entrance, hentrance, helement⟩ := List.mem_map.mp hmem
      obtain ⟨hpos, hcount⟩ := h.count entrance hentrance
      rw [hcount, helement, List.countP_pos_iff] at hpos
      obtain ⟨edge', hedge', henters⟩ := hpos
      have henters : EntersAt P edge.2 edge' := of_decide_eq_true henters
      rcases List.mem_cons.mp hedge' with rfl | hedge'
      · exact henters.2 hnil
      · exact hattributed hnil edge' hedge' henters
    rw [commitEntrance_of_not_mem hnot]
    refine ⟨h.nodup, fun entrance hentrance => ?_, fun edge' hedge' => ?_, fun scope => ?_⟩
    · obtain ⟨hpos, hcount⟩ := h.count entrance hentrance
      have hentersnot : ¬ EntersAt P entrance.element edge := fun henters => henters.2 hnil
      rw [List.countP_cons, if_neg (by simpa using hentersnot)] at hcount
      exact ⟨hpos, hcount⟩
    · exact h.scopes edge' (List.mem_cons_of_mem edge hedge')
    · rw [h.total, tally_cons, hnil]
      exact Nat.zero_add _
  · obtain ⟨entrance, hentrance, helement, hscopes⟩ := h.scopes edge List.mem_cons_self hnil
    obtain ⟨front, back, rfl, hcommit⟩ := commitEntrance_of_mem hentrance h.nodup
    rw [← helement, hcommit]
    have hself : EntersAt P entrance.element edge := ⟨helement.symm, hnil⟩
    obtain ⟨hpos, hcount⟩ := h.count entrance hentrance
    rw [List.countP_cons, if_pos (by simpa using hself)] at hcount
    have hothers : ∀ entrance' : ScopeEntrance, entrance' ∈ front ∨ entrance' ∈ back →
        0 < entrance'.count ∧
          entrance'.count = edges.countP fun edge => EntersAt P entrance'.element edge := by
      intro entrance' hentrance'
      obtain ⟨hpos', hcount'⟩ := h.count entrance' (mem_middle.mpr (.inr hentrance'))
      have hne := ne_of_nodup h.nodup hentrance'
      have hnot : ¬ EntersAt P entrance'.element edge := fun henters =>
        hne (henters.1.symm.trans helement.symm)
      rw [List.countP_cons, if_neg (by simpa using hnot)] at hcount'
      exact ⟨hpos', hcount'⟩
    unfold committed
    split_ifs with hlast
    · rw [List.append_nil]
      refine ⟨?_, fun entrance' hentrance' => ?_, fun edge' hedge' hne' => ?_, fun scope => ?_⟩
      · have hnodup := h.nodup
        rw [List.map_append, List.map_cons, List.nodup_middle, List.nodup_cons,
          ← List.map_append] at hnodup
        exact hnodup.2
      · exact hothers entrance' (List.mem_append.mp hentrance')
      · obtain ⟨entrance', hentrance', helement', hscopes'⟩ :=
          h.scopes edge' (List.mem_cons_of_mem edge hedge') hne'
        rcases mem_middle.mp hentrance' with rfl | hentrance'
        · have hmore : 0 < edges.countP fun edge => EntersAt P entrance'.element edge :=
            List.countP_pos_iff.mpr ⟨edge', hedge', decide_eq_true ⟨helement'.symm, hne'⟩⟩
          omega
        · exact ⟨entrance', List.mem_append.mpr hentrance', helement', hscopes'⟩
      · have htotal := h.total scope
        have hone : entrance.count = 1 := by omega
        rw [totalEntrances_middle, hone, one_mul, tally_cons, hscopes] at htotal
        omega
    · rw [List.append_assoc]
      refine ⟨?_, fun entrance' hentrance' => ?_, fun edge' hedge' hne' => ?_, fun scope => ?_⟩
      · have hnodup := h.nodup
        simpa using hnodup
      · rcases mem_middle.mp hentrance' with rfl | hentrance'
        · dsimp only
          omega
        · exact hothers entrance' hentrance'
      · obtain ⟨entrance', hentrance', helement', hscopes'⟩ :=
          h.scopes edge' (List.mem_cons_of_mem edge hedge') hne'
        rcases mem_middle.mp hentrance' with rfl | hentrance'
        · exact ⟨_, mem_middle.mpr (.inl rfl), helement', hscopes'⟩
        · exact ⟨entrance', mem_middle.mpr (.inr hentrance'), helement', hscopes'⟩
      · have htotal := h.total scope
        obtain ⟨n, hn⟩ : ∃ n, entrance.count = n + 1 := ⟨entrance.count - 1, by omega⟩
        change totalEntrances (front ++ { entrance with count := entrance.count - 1 } :: back) scope = _
        rw [totalEntrances_middle, tally_cons, hscopes, hn, Nat.add_mul, one_mul] at htotal
        rw [totalEntrances_middle, hn, hscopes]
        dsimp only
        rw [Nat.add_sub_cancel]
        omega

end Entrances

end Llvmta.MicroArch.OutOfOrderPipelineState
