import Llvmta.PathAnalysis.PersistenceSoundness

/-!
# The widths in the persistence constraints

The vector of the edges on which a scope is entered is scaled in place, by the width of each
line and each array of the scope in turn. A constraint has the coefficient that its own
number of lines asks for only if all lines and arrays before it are single lines.
-/

namespace Llvmta

open Checked

/-- The edges with a coefficient for how often each is taken. -/
def enterTerms (coeff : ℤ) (edges : List GraphEdge) : VarCoeffVector :=
  edges.map fun edge => (.getEdgeVar .timesTaken edge, coeff)

theorem scale_enterTerms (coeff factor : ℤ) (edges : List GraphEdge) :
    scaleVarCoeffVector (enterTerms coeff edges) factor = enterTerms (coeff * factor) edges := by
  simp [scaleVarCoeffVector, enterTerms, Function.comp_def]

theorem enterTerms_inj {coeff coeff' : ℤ} {edges : List GraphEdge} (hedges : edges ≠ []) :
    enterTerms coeff edges = enterTerms coeff' edges ↔ coeff = coeff' := by
  cases edges with
  | nil => exact absurd rfl hedges
  | cons edge edges =>
    constructor
    · intro h
      have hfirst := (List.cons.inj h).1
      exact (Prod.ext_iff.mp hfirst).2
    · rintro rfl
      rfl

section Spans

variable {P : StaticAddresses} {linesize : Word} {addr : DataAddress} {w : ℤ}

/-- The number of the lines from the first to the last word of an address. -/
def spannedLines (P : StaticAddresses) (linesize : Word) (addr : DataAddress) : ℤ :=
  (countedLines P linesize addr).card

/-- The last word is not before the first, as it is for an array of less than a word. -/
def Forwards (P : StaticAddresses) (linesize : Word) (addr : DataAddress) : Prop :=
  spannedLines P linesize addr ≠ 0

/-- The computed width counts the lines, unless the last word is before the first. -/
theorem width_eq_spannedLines (hline : IsLineSize linesize) (hword : linesize.toNat % 4 = 0)
    (h : lineWidth P linesize addr = .ok w) (hforwards : Forwards P linesize addr) :
    w = spannedLines P linesize addr := by
  obtain ⟨⟨lower, upper⟩, hitv, h⟩ := bind_eq_ok.mp h
  obtain ⟨_, _, h⟩ := bind_eq_ok.mp h
  cases h
  obtain ⟨k, _, hsize⟩ := hline.toNat
  have hpos : 0 < linesize.toNat := hsize ▸ Nat.two_pow_pos k
  unfold Forwards spannedLines at *
  rw [countedLines, hitv] at hforwards ⊢
  dsimp only at hforwards ⊢
  rw [Nat.card_Icc] at hforwards ⊢
  have hle : lower.toNat / linesize.toNat ≤ upper.toNat / linesize.toNat := by omega
  rw [toNat_width hline hword, toNat_distance hline hle, Nat.mul_div_cancel _ hpos]
  omega

end Spans

/-- Equal concatenations of parts with equal lengths have equal parts. -/
theorem flatMap_eq_iff {α β : Type*} {l : List α} {f g : α → List β}
    (hlength : ∀ a ∈ l, (f a).length = (g a).length) :
    l.flatMap f = l.flatMap g ↔ ∀ a ∈ l, f a = g a := by
  induction l with
  | nil => simp
  | cons a l ih =>
    rw [List.flatMap_cons, List.flatMap_cons, List.forall_mem_cons,
      ← ih fun b hb => hlength b (List.mem_cons_of_mem _ hb)]
    constructor
    · intro h
      exact List.append_inj h (hlength a (by simp))
    · rintro ⟨hfirst, hrest⟩
      rw [hfirst, hrest]

namespace StateGraphCacheMissProvider

variable {provider : StateGraphCacheMissProvider}

section Entering

/-- The edges on which a scope is entered. -/
def enteringEdges (provider : StateGraphCacheMissProvider) (scope : PersistenceScope) :
    List GraphEdge :=
  (innerEdges provider.stgr.getGraph).filter fun edge => decide (scope ∈ provider.entered edge)

theorem vectorAt_foldl_addEntered {edge : GraphEdge} {scopes : List PersistenceScope}
    {s : PersistenceScope} (hnodup : scopes.Nodup) (maps : PersistenceMaps) :
    vectorAt (scopes.foldl (PersistenceMaps.addEntered edge) maps).scope2enteredges s =
      vectorAt maps.scope2enteredges s ++ if s ∈ scopes then enterTerms (-1) [edge] else [] := by
  induction scopes generalizing maps with
  | nil => simp
  | cons scope scopes ih =>
    obtain ⟨hnew, hrest⟩ := List.nodup_cons.mp hnodup
    rw [List.foldl_cons, ih hrest, PersistenceMaps.addEntered]
    dsimp only
    rw [vectorAt_insert]
    by_cases hscope : scope = s
    · subst hscope
      rw [if_pos rfl, if_neg hnew, if_pos (by simp), List.append_nil]
      rfl
    · rw [if_neg hscope]
      simp [Ne.symm hscope]

theorem entered_of_annotations {edge : GraphEdge} {annotations : List Annotation}
    {maps maps' : PersistenceMaps}
    (h : annotations.foldlM (PersistenceMaps.addAnnotation edge) maps = .ok maps') :
    maps'.scope2enteredges = maps.scope2enteredges :=
  foldlM_invariant (H := fun m => m.scope2enteredges = maps.scope2enteredges)
    (fun _ _ _ _ hm hstep => foldlM_invariant
      (H := fun m => m.scope2enteredges = maps.scope2enteredges)
      (fun _ _ _ _ hm haccess => (addAccess_entered haccess).trans hm) hm hstep) rfl h

theorem vectorAt_collectEdge {edge : GraphEdge} {maps maps' : PersistenceMaps}
    (h : provider.collectEdge maps edge = .ok maps') (s : PersistenceScope) :
    vectorAt maps'.scope2enteredges s = vectorAt maps.scope2enteredges s ++
      if s ∈ provider.entered edge then enterTerms (-1) [edge] else [] := by
  unfold collectEdge at h
  unfold entered
  cases hweight : provider.edge2weight edge with
  | none =>
    rw [hweight] at h
    cases h
    simp
  | some weight =>
    rw [hweight] at h
    rw [entered_of_annotations h, vectorAt_foldl_addEntered weight.entered_nodup]

/-- The enter edges of a scope are collected in the order of the edges. -/
theorem vectorAt_collected {maps : PersistenceMaps}
    (h : (innerEdges provider.stgr.getGraph).foldlM provider.collectEdge .empty = .ok maps)
    (s : PersistenceScope) :
    vectorAt maps.scope2enteredges s = enterTerms (-1) (provider.enteringEdges s) := by
  have hrun : ∀ (edges : List GraphEdge) (first : PersistenceMaps),
      edges.foldlM provider.collectEdge first = .ok maps →
        vectorAt maps.scope2enteredges s = vectorAt first.scope2enteredges s ++
          enterTerms (-1) (edges.filter fun edge => decide (s ∈ provider.entered edge)) := by
    intro edges
    induction edges with
    | nil =>
      intro first h
      cases h
      simp [enterTerms]
    | cons edge edges ih =>
      intro first h
      rw [List.foldlM_cons] at h
      obtain ⟨next, hnext, h⟩ := bind_eq_ok.mp h
      rw [ih next h, vectorAt_collectEdge hnext, List.filter_cons]
      by_cases hs : s ∈ provider.entered edge <;> simp [hs, enterTerms]
  exact hrun _ _ h

end Entering

section Scaling

/-- The lines and arrays of each scope with their edges, before the enter edges are
subtracted. -/
def mergedBlocks (provider : StateGraphCacheMissProvider) :
    OrderedMap PersistenceScope PersistenceBlocks :=
  match (innerEdges provider.stgr.getGraph).foldlM provider.collectEdge .empty >>=
    mergeArrays provider.staticAddresses provider.Dlinesize with
  | .ok scope2addr2edges => scope2addr2edges
  | .error _ => .empty

def spanOf (provider : StateGraphCacheMissProvider) (addr : DataAddress) : ℤ :=
  spannedLines provider.staticAddresses provider.linesize addr

/-- Each line or array with the enter edges of its scope, for each line once. -/
def scaledByOwnWidth (provider : StateGraphCacheMissProvider) (edges : List GraphEdge)
    (blocks : PersistenceBlocks) : PersistenceBlocks :=
  blocks.map fun block => (block.1, block.2 ++ enterTerms (-provider.spanOf block.1) edges)

/-- The constraints in which the width of each line or array is its own. -/
def ownWidthConstraints (provider : StateGraphCacheMissProvider) : List GraphConstraint :=
  provider.mergedBlocks.entries.flatMap fun scope2x =>
    (provider.scaledByOwnWidth (provider.enteringEdges scope2x.1) scope2x.2).map fun addr2edges =>
      ⟨addr2edges.2, .lessEqual, 0⟩

/-- All before a line or array are single lines, and its own words are in their order. -/
def OnlyLastWider (provider : StateGraphCacheMissProvider) (blocks : PersistenceBlocks) : Prop :=
  ∀ before block behind, blocks = before ++ block :: behind →
    Forwards provider.staticAddresses provider.linesize block.1 ∧
      ∀ earlier ∈ before, provider.spanOf earlier.1 = 1

theorem onlyLastWider_cons {block : DataAddress × VarCoeffVector} {blocks : PersistenceBlocks} :
    provider.OnlyLastWider (block :: blocks) ↔
      Forwards provider.staticAddresses provider.linesize block.1 ∧
        (blocks ≠ [] → provider.spanOf block.1 = 1) ∧ provider.OnlyLastWider blocks := by
  constructor
  · intro h
    refine ⟨(h [] block blocks rfl).1, fun hne => ?_, fun before block' behind heq => ?_⟩
    · cases blocks with
      | nil => exact absurd rfl hne
      | cons next blocks => exact (h [block] next blocks rfl).2 block (by simp)
    · have hlater := h (block :: before) block' behind (by rw [heq, List.cons_append])
      exact ⟨hlater.1, fun earlier hmem => hlater.2 earlier (List.mem_cons_of_mem _ hmem)⟩
  · rintro ⟨hforwards, hone, hrest⟩ before block' behind heq
    cases before with
    | nil =>
      cases heq
      exact ⟨hforwards, by simp⟩
    | cons first before =>
      cases heq
      have hlater := hrest before block' behind rfl
      exact ⟨hlater.1, List.forall_mem_cons.mpr ⟨hone (by simp), hlater.2⟩⟩

/-- After a factor, the scaled blocks are those of their own width if and only if the factor
is one and only the last block is wider. -/
theorem subtractEnterEdges_iff (hline : IsLineSize provider.linesize)
    (hword : provider.linesize.toNat % 4 = 0) {edges : List GraphEdge} (hedges : edges ≠ [])
    {factor : ℤ} (hfactor : 1 ≤ factor) {blocks blocks' : PersistenceBlocks}
    (h : provider.subtractEnterEdges (enterTerms (-factor) edges) blocks = .ok blocks') :
    blocks'.map Prod.fst = blocks.map Prod.fst ∧
      (blocks' = provider.scaledByOwnWidth edges blocks ↔
        (blocks ≠ [] → factor = 1) ∧ provider.OnlyLastWider blocks) := by
  induction blocks generalizing factor blocks' with
  | nil =>
    cases h
    refine ⟨rfl, by simp [scaledByOwnWidth, OnlyLastWider]⟩
  | cons block blocks ih =>
    obtain ⟨addr, own⟩ := block
    obtain ⟨width, hwidth, h⟩ := bind_eq_ok.mp h
    rw [scale_enterTerms, neg_mul] at h
    obtain ⟨rest, hrest, h⟩ := bind_eq_ok.mp h
    cases h
    obtain ⟨hle, hone⟩ := lineWidth_spec hline hword hwidth
    have hproduct : 1 ≤ factor * width := by nlinarith
    obtain ⟨haddrs, hiff⟩ := ih hproduct hrest
    refine ⟨by simp [haddrs], ?_⟩
    have hown : own ++ enterTerms (-(factor * width)) edges =
        own ++ enterTerms (-provider.spanOf addr) edges ↔
          factor = 1 ∧ width = provider.spanOf addr := by
      rw [List.append_cancel_left_eq, enterTerms_inj hedges, neg_inj]
      constructor
      · intro heq
        have hspan : provider.spanOf addr ≤ width := hle
        have hfactor1 : factor = 1 := by nlinarith
        exact ⟨hfactor1, by rw [← heq, hfactor1, one_mul]⟩
      · rintro ⟨rfl, heq⟩
        rw [one_mul, heq]
    have hforwards : Forwards provider.staticAddresses provider.linesize addr ↔
        width = provider.spanOf addr := by
      constructor
      · exact width_eq_spannedLines hline hword hwidth
      · intro heq hzero
        have : provider.spanOf addr = 0 := hzero
        omega
    rw [onlyLastWider_cons]
    simp only [scaledByOwnWidth, List.map_cons, List.cons.injEq, Prod.mk.injEq, true_and]
    rw [hown, ← hforwards, ← scaledByOwnWidth, hiff]
    constructor
    · rintro ⟨⟨hf, hfw⟩, hlater, hrest⟩
      refine ⟨fun _ => hf, hfw, fun hne => ?_, hrest⟩
      have := hlater hne
      rw [hf, one_mul] at this
      rw [← hforwards.mp hfw, this]
    · rintro ⟨hf, hfw, hlater, hrest⟩
      have hf1 := hf (by simp)
      refine ⟨⟨hf1, hfw⟩, fun hne => ?_, hrest⟩
      rw [hf1, one_mul, hforwards.mp hfw, hlater hne]

/-- Nothing is subtracted where the scope is not entered. -/
theorem subtractEnterEdges_nil {blocks blocks' : PersistenceBlocks}
    (h : provider.subtractEnterEdges [] blocks = .ok blocks') : blocks' = blocks := by
  induction blocks generalizing blocks' with
  | nil =>
    cases h
    rfl
  | cons block blocks ih =>
    obtain ⟨addr, own⟩ := block
    obtain ⟨width, -, h⟩ := bind_eq_ok.mp h
    obtain ⟨rest, hrest, h⟩ := bind_eq_ok.mp h
    cases h
    rw [ih hrest]
    simp [scaleVarCoeffVector]

theorem scaledByOwnWidth_nil (blocks : PersistenceBlocks) :
    provider.scaledByOwnWidth [] blocks = blocks := by
  simp [scaledByOwnWidth, enterTerms]

theorem fst_scaledByOwnWidth (edges : List GraphEdge) (blocks : PersistenceBlocks) :
    (provider.scaledByOwnWidth edges blocks).map Prod.fst = blocks.map Prod.fst := by
  simp [scaledByOwnWidth, Function.comp_def]

/-- Blocks of the same lines and arrays are told apart by their constraints. -/
theorem map_constraint_inj {blocks blocks' : PersistenceBlocks}
    (haddrs : blocks.map Prod.fst = blocks'.map Prod.fst) :
    (blocks.map fun addr2edges => (⟨addr2edges.2, .lessEqual, 0⟩ : GraphConstraint)) =
        blocks'.map (fun addr2edges => ⟨addr2edges.2, .lessEqual, 0⟩) ↔ blocks = blocks' := by
  constructor
  · intro h
    have hvectors : blocks.map Prod.snd = blocks'.map Prod.snd := by
      have := congrArg (List.map GraphConstraint.vector) h
      simpa [List.map_map, Function.comp_def] using this
    calc blocks = (blocks.map Prod.fst).zip (blocks.map Prod.snd) := List.zip_of_prod rfl rfl
      _ = (blocks'.map Prod.fst).zip (blocks'.map Prod.snd) := by rw [haddrs, hvectors]
      _ = blocks' := (List.zip_of_prod rfl rfl).symm
  · rintro rfl
    rfl

/-- A computation for each entry that succeeds is a map over the entries. -/
theorem entries_of_sequence
    {f : PersistenceScope → PersistenceBlocks → Except Fault PersistenceBlocks}
    {m m' : OrderedMap PersistenceScope PersistenceBlocks}
    (h : (m.mapValues f).sequence = .ok m') :
    ∃ g : PersistenceScope → PersistenceBlocks,
      m'.entries = m.entries.map (fun e => (e.1, g e.1)) ∧
        ∀ e ∈ m.entries, f e.1 e.2 = .ok (g e.1) := by
  refine ⟨fun s => (m'.find? s).getD [], ?_, ?_⟩
  · have hkeys : m'.keys = m.keys := OrderedMap.keys_eq fun k => by
      rcases OrderedMap.sequence_mapValues h k with ⟨hm, hm'⟩ | ⟨a, b, hm, -, hm'⟩ <;>
        simp [hm, hm']
    have hentries : m'.entries = m'.keys.map fun s => (s, (m'.find? s).getD []) := by
      unfold OrderedMap.keys
      rw [List.map_map]
      symm
      apply List.map_congr_left (g := id) _ |>.trans (List.map_id _)
      intro e he
      rw [Function.comp_apply, OrderedMap.mem_entries_iff.mp he, Option.getD_some]
      rfl
    rw [hentries, hkeys, OrderedMap.keys, List.map_map]
    rfl
  · intro e he
    have hfind := OrderedMap.mem_entries_iff.mp he
    rcases OrderedMap.sequence_mapValues h e.1 with ⟨hm, -⟩ | ⟨a, b, hm, hf, hm'⟩
    · rw [hm] at hfind
      cases hfind
    · rw [hm] at hfind
      cases hfind
      dsimp only
      rw [hf, hm', Option.getD_some]

/-- The constraints are scaled by the widths of their own lines and arrays if and only if, in
each scope that is entered, only the last of them is wider than a line. -/
theorem getPersistenceConstraints_ownWidth_iff (provider : StateGraphCacheMissProvider)
    (hline : IsLineSize provider.linesize) (hword : provider.linesize.toNat % 4 = 0)
    {constraints : List GraphConstraint}
    (h : provider.getPersistenceConstraints = .ok constraints) :
    constraints = provider.ownWidthConstraints ↔
      ∀ scope blocks, provider.mergedBlocks.find? scope = some blocks →
        provider.enteringEdges scope ≠ [] → provider.OnlyLastWider blocks := by
  obtain ⟨result, hresult, h⟩ := bind_eq_ok.mp h
  cases h
  obtain ⟨maps, hmaps, hresult⟩ := bind_eq_ok.mp hresult
  obtain ⟨merged, hmerged, hresult⟩ := bind_eq_ok.mp hresult
  have hblocks : provider.mergedBlocks = merged := by
    unfold mergedBlocks
    rw [hmaps]
    change (match mergeArrays _ _ maps with | .ok m => m | .error _ => .empty) = merged
    rw [hmerged]
  obtain ⟨g, hentries, hg⟩ := entries_of_sequence hresult
  have hscope : ∀ e ∈ merged.entries, (g e.1).map Prod.fst = e.2.map Prod.fst ∧
      (g e.1 = provider.scaledByOwnWidth (provider.enteringEdges e.1) e.2 ↔
        (provider.enteringEdges e.1 ≠ [] → provider.OnlyLastWider e.2)) := by
    intro e he
    have hown := hg e he
    have hcollected := vectorAt_collected hmaps e.1
    have hnil (hedges : provider.enteringEdges e.1 = []) (hsame : g e.1 = e.2) :
        (g e.1).map Prod.fst = e.2.map Prod.fst ∧
          (g e.1 = provider.scaledByOwnWidth (provider.enteringEdges e.1) e.2 ↔
            (provider.enteringEdges e.1 ≠ [] → provider.OnlyLastWider e.2)) := by
      rw [hsame, hedges, scaledByOwnWidth_nil]
      simp
    cases henter : maps.scope2enteredges.find? e.1 with
    | none =>
      rw [henter] at hown
      rw [vectorAt, henter] at hcollected
      exact hnil (List.map_eq_nil_iff.mp hcollected.symm) (Except.ok.inj hown).symm
    | some varCoeffVec =>
      rw [henter] at hown
      rw [vectorAt, henter, Option.getD_some] at hcollected
      subst hcollected
      by_cases hedges : provider.enteringEdges e.1 = []
      · rw [hedges] at hown
        exact hnil hedges (subtractEnterEdges_nil hown)
      · have hiff := subtractEnterEdges_iff hline hword hedges le_rfl hown
        refine ⟨hiff.1, hiff.2.trans ?_⟩
        simp [hedges]
  have hconstraints : ∀ e ∈ merged.entries,
      ((g e.1).map fun addr2edges => (⟨addr2edges.2, .lessEqual, 0⟩ : GraphConstraint)) =
        (provider.scaledByOwnWidth (provider.enteringEdges e.1) e.2).map
          (fun addr2edges => ⟨addr2edges.2, .lessEqual, 0⟩) ↔
        (provider.enteringEdges e.1 ≠ [] → provider.OnlyLastWider e.2) := by
    intro e he
    rw [map_constraint_inj ((hscope e he).1.trans (fst_scaledByOwnWidth _ _).symm)]
    exact (hscope e he).2
  unfold ownWidthConstraints persistenceConstraints
  rw [hblocks, hentries, List.flatMap_map, flatMap_eq_iff]
  · constructor
    · intro h scope blocks hfind
      have he := OrderedMap.mem_entries_iff.mpr hfind
      exact (hconstraints _ he).mp (h _ he)
    · intro h e he
      exact (hconstraints e he).mpr (h e.1 e.2 (OrderedMap.mem_entries_iff.mp he))
  · intro e he
    have hlength := congrArg List.length (hscope e he).1
    simpa [scaledByOwnWidth] using hlength

end Scaling

section Examples

/-- Two arrays at the starts of lines. -/
def twoArrays (size : Word) : StaticAddresses :=
  { oneArray size with glvar2addr := fun glvar => some (if glvar = 0 then 0x100 else 0x200) }

/-- A scope is entered on the edge on which both arrays miss. -/
def twoArraysMiss (size : Word) : StateGraphCacheMissProvider :=
  { secondBlockMisses size with
    edge2weight := fun edge =>
      if edge = (3, 4) then
        some ⟨[0], [arrayAccess, ⟨.array 1, [0], arrayAccess.scopes_nodup⟩], arrayAccess.scopes_nodup, by decide⟩
      else none
    weight_inner := by
      intro edge h
      split_ifs at h with hedge
      · rw [hedge]
        decide
      · exact absurd rfl h
    staticAddresses := twoArrays size }

/-- One constraint for each array, with these coefficients of the edge. -/
def constraintsOf (coeffs : List ℤ) : List GraphConstraint :=
  coeffs.map fun coeff =>
    ⟨[(.getEdgeVar .timesTaken (3, 4), 1), (.getEdgeVar .timesTaken (3, 4), coeff)], .lessEqual, 0⟩

/-- Of two arrays with two lines each, the second is scaled by the width of the first, too. -/
theorem twoArraysMiss_scaled :
    (twoArraysMiss 32).getPersistenceConstraints = .ok (constraintsOf [-2, -4]) ∧
      (twoArraysMiss 32).ownWidthConstraints = constraintsOf [-2, -2] := by
  decide +kernel

theorem ownWidth_oneLineArrays :
    constraintsOf [-1, -1] = (twoArraysMiss 16).ownWidthConstraints ↔
      ∀ scope blocks, (twoArraysMiss 16).mergedBlocks.find? scope = some blocks →
        (twoArraysMiss 16).enteringEdges scope ≠ [] → (twoArraysMiss 16).OnlyLastWider blocks :=
  getPersistenceConstraints_ownWidth_iff (twoArraysMiss 16) isLineSize_16 rfl
    (by decide +kernel)

end Examples

end StateGraphCacheMissProvider

end Llvmta
