import Llvmta.PathAnalysis.PersistentRuns
import Llvmta.PathAnalysis.StateGraphCacheMissProvider
import Llvmta.PathAnalysis.StateGraphDirtifyingStoreProvider

/-!
# The persistence constraints hold on every run

The lines from the start of an array to its end are added to its constraint, but its end is
rounded to a line that may lie behind it, while its width counts the lines from the first
to the last word. The constraints hold on every run whose steps touch, of the lines that are
added to an array, only those of its width.
-/

namespace Llvmta

open Checked PerEntry

section Width

variable {P : StaticAddresses} {linesize : Word} {addr : DataAddress} {w : ℤ}

/-- The width that is computed for an address. -/
def widthOf (P : StaticAddresses) (linesize : Word) (addr : DataAddress) : ℤ :=
  match lineWidth P linesize addr with
  | .ok w => w
  | .error _ => (countedLines P linesize addr).card

theorem widthOf_eq (h : lineWidth P linesize addr = .ok w) : widthOf P linesize addr = w := by
  rw [widthOf, h]

/-- The distance of two lines does not wrap around when the second is not before the first. -/
theorem toNat_distance (hline : IsLineSize linesize) {lower upper : Word}
    (h : lower.toNat / linesize.toNat ≤ upper.toNat / linesize.toNat) :
    (alignTo linesize upper - alignTo linesize lower).toNat =
      (upper.toNat / linesize.toNat - lower.toNat / linesize.toNat) * linesize.toNat := by
  have hle : alignTo linesize lower ≤ alignTo linesize upper := by
    rw [BitVec.le_def, toNat_alignTo hline, toNat_alignTo hline]
    exact Nat.mul_le_mul_right _ h
  rw [BitVec.toNat_sub_of_le hle, toNat_alignTo hline, toNat_alignTo hline, Nat.sub_mul]

theorem toNat_width (hline : IsLineSize linesize) (hword : linesize.toNat % 4 = 0)
    (distance : Word) :
    (distance / linesize + 1).toNat = distance.toNat / linesize.toNat + 1 := by
  obtain ⟨k, _, hsize⟩ := hline.toNat
  have hpos : 0 < linesize.toNat := hsize ▸ Nat.two_pow_pos k
  have hquot : distance.toNat / linesize.toNat ≤ distance.toNat / 4 :=
    Nat.div_le_div_left (by omega) (by decide)
  have hlt := distance.isLt
  have hone : (1 : Word).toNat = 1 := rfl
  rw [BitVec.toNat_add, BitVec.toNat_udiv, hone]
  exact Nat.mod_eq_of_lt (by omega)

theorem lineWidth_spec (hline : IsLineSize linesize) (hword : linesize.toNat % 4 = 0)
    (h : lineWidth P linesize addr = .ok w) :
    ((countedLines P linesize addr).card : ℤ) ≤ w ∧ 1 ≤ w := by
  obtain ⟨⟨lower, upper⟩, hitv, h⟩ := bind_eq_ok.mp h
  obtain ⟨_, _, h⟩ := bind_eq_ok.mp h
  cases h
  obtain ⟨k, _, hsize⟩ := hline.toNat
  have hpos : 0 < linesize.toNat := hsize ▸ Nat.two_pow_pos k
  rw [toNat_width hline hword, countedLines, hitv]
  constructor
  · rw [Nat.card_Icc]
    rcases le_or_gt (lower.toNat / linesize.toNat) (upper.toNat / linesize.toNat) with hle | hgt
    · rw [toNat_distance hline hle, Nat.mul_div_cancel _ hpos]
      push_cast
      omega
    · push_cast
      have hzero : upper.toNat / linesize.toNat + 1 - lower.toNat / linesize.toNat = 0 := by omega
      rw [hzero]
      positivity
  · exact_mod_cast Nat.le_add_left 1 _

theorem card_le_widthOf (hline : IsLineSize linesize) (hword : linesize.toNat % 4 = 0) :
    ((countedLines P linesize addr).card : ℤ) ≤ widthOf P linesize addr := by
  cases h : lineWidth P linesize addr with
  | ok w =>
    rw [widthOf_eq h]
    exact (lineWidth_spec hline hword h).1
  | error e =>
    rw [widthOf, h]

end Width

section Arrays

variable {P : StaticAddresses} {Dlinesize base : Word} {glvar : GlobalVariable}

theorem inRange_iff (hline : IsLineSize Dlinesize)
    (hbase : P.getGlobalVarAddress glvar = .ok base)
    (hfits : base.toNat + (P.getArraySize glvar).toNat < 2 ^ 32) (a : Word) :
    inRange P Dlinesize glvar a = true ↔
      base.toNat / Dlinesize.toNat * Dlinesize.toNat ≤ a.toNat ∧
        a.toNat ≤ (base.toNat / Dlinesize.toNat + (P.getArraySize glvar).toNat / Dlinesize.toNat) *
          Dlinesize.toNat := by
  obtain ⟨k, _, hsize⟩ := hline.toNat
  have hpos : 0 < Dlinesize.toNat := hsize ▸ Nat.two_pow_pos k
  have hle := Nat.div_mul_le_self base.toNat Dlinesize.toNat
  have hlast : (alignTo Dlinesize (alignTo Dlinesize base + P.getArraySize glvar)).toNat =
      (base.toNat / Dlinesize.toNat + (P.getArraySize glvar).toNat / Dlinesize.toNat) *
        Dlinesize.toNat := by
    rw [toNat_alignTo hline, BitVec.toNat_add, toNat_alignTo hline, Nat.mod_eq_of_lt (by omega),
      Nat.mul_comm (base.toNat / Dlinesize.toNat), Nat.mul_add_div hpos]
  rw [inRange, hbase]
  dsimp only
  rw [Bool.not_eq_true', decide_eq_false_iff_not, not_or, BitVec.lt_def, BitVec.lt_def, hlast,
    toNat_alignTo hline, not_lt, not_lt]

theorem countedLines_array {linesize : Word} (hbase : P.getGlobalVarAddress glvar = .ok base)
    (hfits : base.toNat + (P.getArraySize glvar).toNat < 2 ^ 32)
    (hword : 4 ≤ (P.getArraySize glvar).toNat) :
    countedLines P linesize (.array glvar) = Finset.Icc (base.toNat / linesize.toNat)
      ((base.toNat + (P.getArraySize glvar).toNat - 4) / linesize.toNat) := by
  have hupper : (base + P.getArraySize glvar - 4).toNat =
      base.toNat + (P.getArraySize glvar).toNat - 4 := by
    have hfour : (4 : Word).toNat = 4 := rfl
    have hadd : (base + P.getArraySize glvar).toNat =
        base.toNat + (P.getArraySize glvar).toNat := by
      rw [BitVec.toNat_add, Nat.mod_eq_of_lt hfits]
    rw [BitVec.toNat_sub_of_le (by rw [BitVec.le_def, hadd, hfour]; omega), hadd, hfour]
  have hle : base ≤ base + P.getArraySize glvar - 4 := by
    rw [BitVec.le_def, hupper]
    omega
  rw [countedLines, DataAddress.getAsInterval, hbase]
  simp only [ok_bind, if_pos hle]
  rw [hupper]

/-- The lines that are added to an array are those of its width, unless the last one holds no
word of it. -/
theorem inRange_counted_iff (hline : IsLineSize Dlinesize)
    (hbase : P.getGlobalVarAddress glvar = .ok base)
    (hfits : base.toNat + (P.getArraySize glvar).toNat < 2 ^ 32)
    (hword : 4 ≤ (P.getArraySize glvar).toNat) :
    (∀ a, inRange P Dlinesize glvar a = true →
      a.toNat / Dlinesize.toNat ∈ countedLines P Dlinesize (.array glvar)) ↔
        4 ≤ base.toNat % Dlinesize.toNat + (P.getArraySize glvar).toNat % Dlinesize.toNat := by
  obtain ⟨k, _, hsize⟩ := hline.toNat
  have hpos : 0 < Dlinesize.toNat := hsize ▸ Nat.two_pow_pos k
  have hbase' := Nat.div_add_mod base.toNat Dlinesize.toNat
  have hsize' := Nat.div_add_mod (P.getArraySize glvar).toNat Dlinesize.toNat
  have hsum : base.toNat + (P.getArraySize glvar).toNat =
      Dlinesize.toNat * (base.toNat / Dlinesize.toNat +
        (P.getArraySize glvar).toNat / Dlinesize.toNat) +
      (base.toNat % Dlinesize.toNat + (P.getArraySize glvar).toNat % Dlinesize.toNat) := by
    rw [Nat.mul_add]
    omega
  have hlast : base.toNat / Dlinesize.toNat + (P.getArraySize glvar).toNat / Dlinesize.toNat ≤
      (base.toNat + (P.getArraySize glvar).toNat - 4) / Dlinesize.toNat ↔
        4 ≤ base.toNat % Dlinesize.toNat + (P.getArraySize glvar).toNat % Dlinesize.toNat := by
    rw [Nat.le_div_iff_mul_le hpos, Nat.mul_comm]
    omega
  rw [← hlast]
  simp only [countedLines_array hbase hfits hword, Finset.mem_Icc, inRange_iff hline hbase hfits]
  constructor
  · intro h
    have hlt : (base.toNat / Dlinesize.toNat + (P.getArraySize glvar).toNat / Dlinesize.toNat) *
        Dlinesize.toNat < 2 ^ 32 := by
      rw [Nat.mul_comm]
      omega
    have hend := h (BitVec.ofNat 32 ((base.toNat / Dlinesize.toNat +
      (P.getArraySize glvar).toNat / Dlinesize.toNat) * Dlinesize.toNat))
    rw [BitVec.toNat_ofNat, Nat.mod_eq_of_lt hlt, Nat.mul_div_cancel _ hpos] at hend
    exact (hend ⟨Nat.mul_le_mul_right _ (Nat.le_add_right _ _), le_rfl⟩).2
  · rintro h a ⟨hlower, hupper⟩
    refine ⟨(Nat.le_div_iff_mul_le hpos).mpr hlower, le_trans ?_ h⟩
    exact (Nat.div_le_div_right hupper).trans_eq (Nat.mul_div_cancel _ hpos)

/-- An array of aligned words has no line but those of its width. -/
theorem touchesLine_counted (hbase : P.getGlobalVarAddress glvar = .ok base)
    (hfits : base.toNat + (P.getArraySize glvar).toNat < 2 ^ 32)
    (hword : 4 ≤ (P.getArraySize glvar).toNat) (hwords : Dlinesize.toNat % 4 = 0)
    (haligned : (base.toNat + (P.getArraySize glvar).toNat) % 4 = 0) {line : ℕ}
    (h : TouchesLine P Dlinesize (.array glvar) line) :
    line ∈ countedLines P Dlinesize (.array glvar) := by
  obtain ⟨base', hbase', a, hlower, hupper, rfl⟩ := h
  rw [hbase] at hbase'
  cases hbase'
  obtain ⟨d, hd⟩ : ∃ d, Dlinesize.toNat = 4 * d := ⟨Dlinesize.toNat / 4, by omega⟩
  rw [countedLines_array hbase hfits hword, Finset.mem_Icc]
  constructor
  · exact Nat.div_le_div_right hlower
  · rw [hd, ← Nat.div_div_eq_div_mul, ← Nat.div_div_eq_div_mul]
    apply Nat.div_le_div_right
    omega

/-- On arrays of aligned words whose last line holds one of them every step stays within. -/
theorem withinArrays_of_words {edges : List GraphEdge} {annotated : GraphEdge → List Annotation}
    {entered : List PersistenceScope} {annotations : List Annotation}
    {events : List PersistenceEvent} (hline : IsLineSize Dlinesize)
    (hwords : Dlinesize.toNat % 4 = 0)
    (harrays : ∀ s glvar, Annotated edges annotated s (.array glvar) → ∃ base,
      P.getGlobalVarAddress glvar = .ok base ∧
      base.toNat + (P.getArraySize glvar).toNat < 2 ^ 32 ∧ 4 ≤ (P.getArraySize glvar).toNat ∧
      (base.toNat + (P.getArraySize glvar).toNat) % 4 = 0 ∧
      4 ≤ base.toNat % Dlinesize.toNat + (P.getArraySize glvar).toNat % Dlinesize.toNat)
    (h : Traverses P Dlinesize entered annotations events) :
    WithinArrays P Dlinesize Dlinesize edges annotated events := by
  intro annot line hmem s hs glvar hannotated hgroup
  obtain ⟨base, hbase, hfits, hword, haligned, hlast⟩ := harrays s glvar hannotated
  have htouches := h.lines hmem
  cases haddr : annot.address with
  | array glvar' =>
    rw [haddr] at hgroup htouches
    have hglvar : glvar' = glvar := by simpa [groupOf, isArrayOf] using hgroup
    rw [hglvar] at htouches
    exact touchesLine_counted hbase hfits hword hwords haligned htouches
  | interval lower upper =>
    rw [haddr] at hgroup htouches
    have hin : lower = upper ∧ inRange P Dlinesize glvar lower = true := by
      simpa [groupOf, isArrayOf] using hgroup
    obtain ⟨a, hlower, hupper, rfl⟩ := htouches
    have ha : a = lower.toNat := le_antisymm (hin.1 ▸ hupper) hlower
    rw [ha]
    exact (inRange_counted_iff hline hbase hfits hword).mpr hlast lower hin.2

end Arrays

theorem mem_persistenceConstraints {scope2addr2edges : OrderedMap PersistenceScope PersistenceBlocks}
    {constr : GraphConstraint} (h : constr ∈ persistenceConstraints scope2addr2edges) :
    ∃ s blocks addr v, scope2addr2edges.find? s = some blocks ∧ (addr, v) ∈ blocks ∧
      constr = ⟨v, .lessEqual, 0⟩ := by
  obtain ⟨⟨s, blocks⟩, hscope, hmem⟩ := List.mem_flatMap.mp h
  obtain ⟨⟨addr, v⟩, hblock, rfl⟩ := List.mem_map.mp hmem
  exact ⟨s, blocks, addr, v, OrderedMap.mem_entries_iff.mp hscope, hblock, rfl⟩

namespace StateGraphCacheMissProvider

variable {provider : StateGraphCacheMissProvider}

/-- The scopes that are entered on an edge. -/
def entered (provider : StateGraphCacheMissProvider) (edge : GraphEdge) : List PersistenceScope :=
  match provider.edge2weight edge with
  | none => []
  | some weight => weight.entered

/-- The misses of an edge. -/
def missed (provider : StateGraphCacheMissProvider) (edge : GraphEdge) : List Annotation :=
  match provider.edge2weight edge with
  | none => []
  | some weight => weight.missed

theorem collectEdge_spec {maps maps' : PersistenceMaps} {edge : GraphEdge}
    (h : provider.collectEdge maps edge = .ok maps') :
    Collects edge (provider.entered edge) (provider.missed edge) maps maps' := by
  unfold collectEdge at h
  unfold entered missed
  cases hweight : provider.edge2weight edge with
  | none =>
    rw [hweight] at h
    cases h
    exact .refl edge _
  | some weight =>
    rw [hweight] at h
    exact (collects_entered weight.entered maps).trans (collects_annotations h)

/-- Each block gets the enter edges with a factor that is at least its width. -/
theorem mem_subtractEnterEdges (hline : IsLineSize provider.linesize)
    (hword : provider.linesize.toNat % 4 = 0) {varCoeffVec : VarCoeffVector}
    {blocks blocks' : PersistenceBlocks} {addr : DataAddress} {v : VarCoeffVector}
    (h : provider.subtractEnterEdges varCoeffVec blocks = .ok blocks') (hv : (addr, v) ∈ blocks') :
    ∃ edges factor, (addr, edges) ∈ blocks ∧
      widthOf provider.staticAddresses provider.linesize addr ≤ factor ∧
      ∀ x, value x v = value x edges + value x varCoeffVec * factor := by
  induction blocks generalizing varCoeffVec blocks' with
  | nil =>
    cases h
    cases hv
  | cons block blocks ih =>
    obtain ⟨addr', edges⟩ := block
    obtain ⟨width, hwidth, h⟩ := bind_eq_ok.mp h
    obtain ⟨rest, hrest, h⟩ := bind_eq_ok.mp h
    cases h
    have hone := (lineWidth_spec hline hword hwidth).2
    rcases List.mem_cons.mp hv with hfirst | hlater
    · cases hfirst
      refine ⟨edges, width, List.mem_cons_self, (widthOf_eq hwidth).le, fun x => ?_⟩
      rw [value_append, value_scale]
    · obtain ⟨edges', factor, hmem, hle, hvalue⟩ := ih hrest hlater
      have hpos : 0 ≤ widthOf provider.staticAddresses provider.linesize addr :=
        (Int.natCast_nonneg _).trans (card_le_widthOf hline hword)
      refine ⟨edges', width * factor, List.mem_cons_of_mem _ hmem, ?_, fun x => ?_⟩
      · nlinarith
      · rw [hvalue, value_scale, mul_assoc]

theorem entered_of_notMem {edge : GraphEdge} (hedge : provider.stgr.getGraph.hasEdge edge)
    (h : edge ∉ innerEdges provider.stgr.getGraph) : provider.entered edge = [] := by
  unfold entered
  cases hweight : provider.edge2weight edge with
  | none => rfl
  | some weight =>
    have hinner : edge.1 ≠ 0 ∧ edge.2 ≠ 0 :=
      provider.weight_inner (by rw [hweight]; exact nofun)
    exact absurd (List.mem_filter.mpr ⟨Graph.mem_edges.mpr hedge, by simpa using hinner⟩) h

/-- The entries of a scope are those that its vector of enter edges counts. -/
theorem value_entered {maps : PersistenceMaps}
    (hmaps : Collected (innerEdges provider.stgr.getGraph) provider.entered provider.missed maps)
    {edge : GraphEdge} (hedge : provider.stgr.getGraph.hasEdge edge) (s : PersistenceScope) :
    value (taken edge) (vectorAt maps.scope2enteredges s) =
      -((provider.entered edge).count s : ℤ) := by
  rw [hmaps.entered]
  by_cases hinner : edge ∈ innerEdges provider.stgr.getGraph
  · rw [if_pos hinner]
  · rw [if_neg hinner, entered_of_notMem hedge hinner]
    rfl

/-- What is subtracted from a block covers its width for each entry. -/
theorem getPerScopePersistenceEdges_spec (hline : IsLineSize provider.linesize)
    (hword : provider.linesize.toNat % 4 = 0)
    {scope2addr2edges : OrderedMap PersistenceScope PersistenceBlocks}
    (h : provider.getPerScopePersistenceEdges = .ok scope2addr2edges) {s : PersistenceScope}
    {blocks : PersistenceBlocks} (hblocks : scope2addr2edges.find? s = some blocks)
    {addr : DataAddress} {v : VarCoeffVector} (hv : (addr, v) ∈ blocks) :
    ((∃ a, addr = .ofAddress a) ∨ ∃ glvar, addr = .array glvar ∧
      Annotated (innerEdges provider.stgr.getGraph) provider.missed s addr) ∧
    ∀ edge, provider.stgr.getGraph.hasEdge edge → value (taken edge) v ≤
      hits (groupOf provider.staticAddresses provider.Dlinesize addr) s (provider.missed edge) -
        widthOf provider.staticAddresses provider.linesize addr *
          ((provider.entered edge).count s : ℤ) := by
  obtain ⟨maps, hmaps, h⟩ := bind_eq_ok.mp h
  obtain ⟨merged, hmerged, h⟩ := bind_eq_ok.mp h
  have hnodup : (innerEdges provider.stgr.getGraph).Nodup :=
    (Graph.edges_nodup provider.stgr.getGraph).filter _
  have hcollected := collected provider.entered provider.missed
    (fun _ _ _ => collectEdge_spec) hnodup hmaps
  rcases OrderedMap.sequence_mapValues h s with ⟨_, hnone⟩ | ⟨own, blocks', hown, hok, hsome⟩
  · rw [hnone] at hblocks
    cases hblocks
  rw [hblocks] at hsome
  cases hsome
  cases henter : maps.scope2enteredges.find? s with
  | none =>
    rw [henter] at hok
    cases hok
    refine ⟨address_of_mergeArrays hcollected hmerged hown hv, fun edge hedge => ?_⟩
    have hzero := value_entered hcollected hedge s
    rw [vectorAt, henter] at hzero
    have hcount : ((provider.entered edge).count s : ℤ) = 0 := neg_eq_zero.mp hzero.symm
    rw [hcount, mul_zero, sub_zero]
    exact value_mergeArrays hcollected hmerged hown hv edge
  | some varCoeffVec =>
    rw [henter] at hok
    obtain ⟨edges, factor, hmem, hle, hvalue⟩ := mem_subtractEnterEdges hline hword hok hv
    refine ⟨address_of_mergeArrays hcollected hmerged hown hmem, fun edge hedge => ?_⟩
    have hentered := value_entered hcollected hedge s
    rw [vectorAt, henter, Option.getD_some] at hentered
    have hown' := value_mergeArrays hcollected hmerged hown hmem edge
    have hfactor := mul_le_mul_of_nonneg_right hle
      (Int.natCast_nonneg ((provider.entered edge).count s))
    rw [hvalue, hentered]
    linarith

/-- The edges of a run with the events of a provider's weights. -/
def Runs (provider : StateGraphCacheMissProvider) (run : PersistentPath) : Prop :=
  PersistentRun provider.staticAddresses provider.linesize provider.stgr.getGraph provider.entered
    provider.missed run

def StaysWithin (provider : StateGraphCacheMissProvider) (run : PersistentPath) : Prop :=
  ∀ step ∈ run, WithinArrays provider.staticAddresses provider.Dlinesize provider.linesize
    (innerEdges provider.stgr.getGraph) provider.missed step.2

theorem constraints_hold (hline : IsLineSize provider.linesize)
    (hword : provider.linesize.toNat % 4 = 0) {constraints : List GraphConstraint}
    (h : provider.getPersistenceConstraints = .ok constraints) {run : PersistentPath}
    (hrun : provider.Runs run) (hwithin : provider.StaysWithin run) {constr : GraphConstraint}
    (hconstr : constr ∈ constraints) : constr.Satisfied (timesTaken (run.map Prod.fst)) := by
  obtain ⟨scope2addr2edges, hedges, h⟩ := bind_eq_ok.mp h
  cases h
  obtain ⟨s, blocks, addr, v, hblocks, hv, rfl⟩ := mem_persistenceConstraints hconstr
  obtain ⟨haddr, hvalue⟩ := getPerScopePersistenceEdges_spec hline hword hedges hblocks hv
  exact value_run_nonpos hrun hwithin haddr (card_le_widthOf hline hword) hvalue

end StateGraphCacheMissProvider

namespace StateGraphDirtifyingStoreProvider

variable {provider : StateGraphDirtifyingStoreProvider}

/-- An edge enters a scope from a state outside to a first state of its entry block. -/
def entersScope (provider : StateGraphDirtifyingStoreProvider) (edge : GraphEdge)
    (s : PersistenceScope) : Bool :=
  match provider.scopeInfo.getEntryBasicBlocks s with
  | [entryBB] =>
    decide (edge.2 ∈ provider.stgr.getInStates entryBB) &&
      (provider.controlFlow.getNonEmptyPredecessorBasicBlocks entryBB).any fun predBB =>
        decide (edge.1 ∈ outsideStates provider.controlFlow provider.stgr
          (provider.scopeInfo.containsBasicBlock s) entryBB predBB)
  | _ => false

theorem entersScope_of_entry {edge : GraphEdge} {s : PersistenceScope}
    {entryBB : MachineBasicBlock}
    (hentry : provider.scopeInfo.getEntryBasicBlocks s = [entryBB]) :
    provider.entersScope edge s = (decide (edge.2 ∈ provider.stgr.getInStates entryBB) &&
      (provider.controlFlow.getNonEmptyPredecessorBasicBlocks entryBB).any fun predBB =>
        decide (edge.1 ∈ outsideStates provider.controlFlow provider.stgr
          (provider.scopeInfo.containsBasicBlock s) entryBB predBB)) := by
  simp only [entersScope, hentry]

/-- The scopes that are entered on an edge. -/
def entered (provider : StateGraphDirtifyingStoreProvider) (edge : GraphEdge) :
    List PersistenceScope :=
  provider.scopeInfo.getAllPersistenceScopes.filter (provider.entersScope edge)

/-- The dirtifying stores of an edge. -/
def stored (provider : StateGraphDirtifyingStoreProvider) (edge : GraphEdge) : List Annotation :=
  (provider.edge2weight edge).getD []

theorem collectEdge_spec {maps maps' : PersistenceMaps} {edge : GraphEdge}
    (h : provider.collectEdge maps edge = .ok maps') :
    Collects edge [] (provider.stored edge) maps maps' := by
  unfold collectEdge at h
  unfold stored
  cases hweight : provider.edge2weight edge with
  | none =>
    rw [hweight] at h
    cases h
    exact .refl edge _
  | some weight =>
    rw [hweight] at h
    exact collects_annotations h

/-- The edges of a list are subtracted from each block, as often as its width. -/
def Subtracts (provider : StateGraphDirtifyingStoreProvider) (edges : List GraphEdge)
    (blocks blocks' : PersistenceBlocks) : Prop :=
  ∀ addr v', (addr, v') ∈ blocks' → ∃ v, (addr, v) ∈ blocks ∧ ∀ edge,
    value (taken edge) v' = value (taken edge) v -
      widthOf provider.staticAddresses provider.Dlinesize addr * (edges.count edge : ℤ)

theorem Subtracts.nil (blocks : PersistenceBlocks) :
    provider.Subtracts [] blocks blocks := by
  intro addr v' hv'
  exact ⟨v', hv', fun edge => by simp⟩

theorem Subtracts.append {edges edges' : List GraphEdge} {blocks blocks' blocks'' : PersistenceBlocks}
    (h : provider.Subtracts edges blocks blocks') (h' : provider.Subtracts edges' blocks' blocks'') :
    provider.Subtracts (edges ++ edges') blocks blocks'' := by
  intro addr v'' hv''
  obtain ⟨v', hv', hvalue'⟩ := h' addr v'' hv''
  obtain ⟨v, hv, hvalue⟩ := h addr v' hv'
  refine ⟨v, hv, fun edge => ?_⟩
  rw [hvalue', hvalue, List.count_append]
  push_cast
  ring

theorem subtracts_foldlM {α : Type} {step : PersistenceBlocks → α → Except Fault PersistenceBlocks}
    {edges : α → List GraphEdge} (hstep : ∀ blocks a blocks', step blocks a = .ok blocks' →
      provider.Subtracts (edges a) blocks blocks') {l : List α} {blocks blocks' : PersistenceBlocks}
    (h : l.foldlM step blocks = .ok blocks') :
    provider.Subtracts (l.flatMap edges) blocks blocks' := by
  induction l generalizing blocks with
  | nil =>
    cases h
    exact .nil _
  | cons a l ih =>
    rw [List.foldlM_cons] at h
    obtain ⟨blocks₁, h₁, h⟩ := bind_eq_ok.mp h
    rw [List.flatMap_cons]
    exact (hstep _ _ _ h₁).append (ih h)

theorem subtractEnterEdge_spec {edge : GraphEdge} {blocks blocks' : PersistenceBlocks}
    (h : provider.subtractEnterEdge edge blocks = .ok blocks') :
    provider.Subtracts [edge] blocks blocks' := by
  induction blocks generalizing blocks' with
  | nil =>
    cases h
    exact fun _ _ hv' => nomatch hv'
  | cons block blocks ih =>
    obtain ⟨addr, edges⟩ := block
    obtain ⟨width, hwidth, h⟩ := bind_eq_ok.mp h
    obtain ⟨rest, hrest, h⟩ := bind_eq_ok.mp h
    cases h
    intro addr' v' hv'
    rcases List.mem_cons.mp hv' with hfirst | hlater
    · cases hfirst
      refine ⟨edges, List.mem_cons_self, fun e => ?_⟩
      rw [value_append, value_taken_singleton, widthOf_eq hwidth, List.count_singleton]
      by_cases he : edge = e
      · simp [he, sub_eq_add_neg]
      · simp [he]
    · obtain ⟨v, hv, hvalue⟩ := ih hrest addr' v' hlater
      exact ⟨v, List.mem_cons_of_mem _ hv, hvalue⟩

/-- The edges at a first state of the entry block that come from outside. -/
def enterEdges (provider : StateGraphDirtifyingStoreProvider) (states : PredecessorStates)
    (inState : ℕ) : List GraphEdge :=
  (provider.stgr.getGraph.getPredecessors inState).flatMap fun predState =>
    if predState ∈ states.outStatesOutsideScope then [(predState, inState)] else []

theorem visitInState_spec {states : PredecessorStates} {inState : ℕ}
    {blocks blocks' : PersistenceBlocks}
    (h : provider.visitInState states blocks inState = .ok blocks') :
    provider.Subtracts (provider.enterEdges states inState) blocks blocks' := by
  refine subtracts_foldlM (fun blocks predState blocks' hok => ?_) h
  unfold visitPredecessor at hok
  split_ifs with houtside
  · rw [if_pos houtside] at hok
    exact subtractEnterEdge_spec hok
  · rw [if_neg houtside] at hok
    obtain ⟨_, _, hok⟩ := bind_eq_ok.mp hok
    cases hok
    exact .nil blocks

/-- Each edge that enters the scope is subtracted. -/
theorem subtractEnterEdges_spec {s : PersistenceScope} {blocks blocks' : PersistenceBlocks}
    (h : provider.subtractEnterEdges s blocks = .ok blocks') :
    ∃ edges, provider.Subtracts edges blocks blocks' ∧
      ∀ edge, provider.stgr.getGraph.hasEdge edge → provider.entersScope edge s = true →
        edge ∈ edges := by
  unfold subtractEnterEdges at h
  split at h
  · next entryBB hentry =>
    split_ifs at h with hunreachable
    · cases h
      refine ⟨[], .nil blocks, fun edge _ henters => ?_⟩
      rw [entersScope_of_entry hentry] at henters
      simp [hunreachable] at henters
    · obtain ⟨states, hstates, h⟩ := bind_eq_ok.mp h
      have hsubtracts : provider.Subtracts ((provider.stgr.getInStates entryBB).flatMap
          (provider.enterEdges states)) blocks blocks' := by
        apply subtracts_foldlM ?_ h
        intro _ _ _ hok
        exact visitInState_spec hok
      refine ⟨_, hsubtracts, fun edge hedge henters => ?_⟩
      rw [entersScope_of_entry hentry] at henters
      obtain ⟨hin, hpred⟩ := Bool.and_eq_true_iff.mp henters
      obtain ⟨predBB, hpredBB, hmem⟩ := List.any_eq_true.mp hpred
      have houtside : edge.1 ∈ states.outStatesOutsideScope :=
        (mem_outStatesOutsideScope hstates).mpr ⟨predBB, hpredBB, of_decide_eq_true hmem⟩
      apply List.mem_flatMap.mpr
      refine ⟨edge.2, of_decide_eq_true hin, List.mem_flatMap.mpr ⟨edge.1, ?_, ?_⟩⟩
      · exact Graph.mem_getPredecessors.mpr hedge
      · rw [if_pos houtside]
        exact List.mem_singleton_self edge
  · cases h

/-- The scopes are visited once each. -/
theorem foldlM_visitScope {scopes : List PersistenceScope} (hnodup : scopes.Nodup)
    {m m' : OrderedMap PersistenceScope PersistenceBlocks}
    (h : scopes.foldlM provider.visitScope m = .ok m') (s : PersistenceScope) :
    (s ∉ scopes ∧ m'.find? s = m.find? s) ∨
      (s ∈ scopes ∧ ∃ blocks, provider.subtractEnterEdges s ((m.find? s).getD []) = .ok blocks ∧
        m'.find? s = some blocks) := by
  induction scopes generalizing m with
  | nil =>
    cases h
    exact .inl ⟨List.not_mem_nil, rfl⟩
  | cons scope scopes ih =>
    obtain ⟨hnotin, hnodup⟩ := List.nodup_cons.mp hnodup
    rw [List.foldlM_cons] at h
    obtain ⟨m₁, hvisit, h⟩ := bind_eq_ok.mp h
    obtain ⟨blocks, hblocks, hvisit⟩ := bind_eq_ok.mp hvisit
    cases hvisit
    by_cases hscope : scope = s
    · subst hscope
      rcases ih hnodup h with ⟨_, hfind⟩ | ⟨hmem, _⟩
      · exact .inr ⟨List.mem_cons_self, blocks, hblocks, by rw [hfind, OrderedMap.find?_insert_self]⟩
      · exact absurd hmem hnotin
    · rcases ih hnodup h with ⟨hmem, hfind⟩ | ⟨hmem, blocks', hok, hfind⟩
      · refine .inl ⟨fun hs => ?_, by rw [hfind, OrderedMap.find?_insert_of_ne hscope]⟩
        exact (List.mem_cons.mp hs).elim (fun heq => hscope heq.symm) hmem
      · rw [OrderedMap.find?_insert_of_ne hscope] at hok
        exact .inr ⟨List.mem_cons_of_mem _ hmem, blocks', hok, hfind⟩

theorem count_entered_le (edge : GraphEdge) (s : PersistenceScope) :
    (provider.entered edge).count s ≤ 1 :=
  List.nodup_iff_count_le_one.mp (provider.scopeInfo.scopes_nodup.filter _) s

def Runs (provider : StateGraphDirtifyingStoreProvider) (run : PersistentPath) : Prop :=
  PersistentRun provider.staticAddresses provider.Dlinesize provider.stgr.getGraph provider.entered
    provider.stored run

def StaysWithin (provider : StateGraphDirtifyingStoreProvider) (run : PersistentPath) : Prop :=
  ∀ step ∈ run, WithinArrays provider.staticAddresses provider.Dlinesize provider.Dlinesize
    (innerEdges provider.stgr.getGraph) provider.stored step.2

theorem constraints_hold (hline : IsLineSize provider.Dlinesize)
    (hword : provider.Dlinesize.toNat % 4 = 0) {constraints : List GraphConstraint}
    (h : provider.getPersistentDFSConstraints = .ok constraints) {run : PersistentPath}
    (hrun : provider.Runs run) (hwithin : provider.StaysWithin run) {constr : GraphConstraint}
    (hconstr : constr ∈ constraints) : constr.Satisfied (timesTaken (run.map Prod.fst)) := by
  obtain ⟨merged, hmerged, h⟩ := bind_eq_ok.mp h
  obtain ⟨maps, hmaps, hmerged⟩ := bind_eq_ok.mp hmerged
  obtain ⟨scope2addr2edges, hvisited, h⟩ := bind_eq_ok.mp h
  cases h
  have hnodup : (innerEdges provider.stgr.getGraph).Nodup :=
    (Graph.edges_nodup provider.stgr.getGraph).filter _
  have hcollected := collected (fun _ => []) provider.stored
    (fun _ _ _ => collectEdge_spec) hnodup hmaps
  obtain ⟨s, blocks, addr, v, hblocks, hv, rfl⟩ := mem_persistenceConstraints hconstr
  rcases foldlM_visitScope provider.scopeInfo.scopes_nodup hvisited s with
    ⟨hnone, hfind⟩ | ⟨_, blocks', hsubtracted, hfind⟩
  · rw [hfind] at hblocks
    refine value_run_nonpos hrun hwithin (address_of_mergeArrays hcollected hmerged hblocks hv)
      (card_le_widthOf hline hword) fun edge _ => ?_
    have hcount : (provider.entered edge).count s = 0 :=
      List.count_eq_zero.mpr fun hmem => hnone (List.mem_filter.mp hmem).1
    rw [hcount, Nat.cast_zero, mul_zero, sub_zero]
    exact value_mergeArrays hcollected hmerged hblocks hv edge
  · rw [hfind] at hblocks
    cases hblocks
    obtain ⟨edges, hsubtracts, henters⟩ := subtractEnterEdges_spec hsubtracted
    obtain ⟨v', hv', hvalue⟩ := hsubtracts addr v hv
    cases hown : merged.find? s with
    | none =>
      rw [hown] at hv'
      cases hv'
    | some own =>
      rw [hown] at hv'
      refine value_run_nonpos hrun hwithin (address_of_mergeArrays hcollected hmerged hown hv')
        (card_le_widthOf hline hword) fun edge hedge => ?_
      have hcount : (provider.entered edge).count s ≤ edges.count edge := by
        by_cases hmem : s ∈ provider.entered edge
        · exact (count_entered_le edge s).trans
            (List.count_pos_iff.mpr (henters edge hedge (List.mem_filter.mp hmem).2))
        · rw [List.count_eq_zero.mpr hmem]
          exact Nat.zero_le _
      have hwidth : 0 ≤ widthOf provider.staticAddresses provider.Dlinesize addr :=
        (Int.natCast_nonneg _).trans (card_le_widthOf hline hword)
      have hmul := mul_le_mul_of_nonneg_left (Int.ofNat_le.mpr hcount) hwidth
      have hown' := value_mergeArrays hcollected hmerged hown hv' edge
      rw [hvalue]
      linarith

end StateGraphDirtifyingStoreProvider

/-- On every run whose steps touch, of the lines that are added to an array, only those that
its width counts, the constraints for misses and for dirtifying stores hold. -/
theorem persistenceConstraints_hold (misses : StateGraphCacheMissProvider)
    (stores : StateGraphDirtifyingStoreProvider) :
    (IsLineSize misses.linesize → misses.linesize.toNat % 4 = 0 → ∀ constraints,
      misses.getPersistenceConstraints = .ok constraints → ∀ run, misses.Runs run →
      misses.StaysWithin run → ∀ constr ∈ constraints,
      constr.Satisfied (timesTaken (run.map Prod.fst))) ∧
    (IsLineSize stores.Dlinesize → stores.Dlinesize.toNat % 4 = 0 → ∀ constraints,
      stores.getPersistentDFSConstraints = .ok constraints → ∀ run, stores.Runs run →
      stores.StaysWithin run → ∀ constr ∈ constraints,
      constr.Satisfied (timesTaken (run.map Prod.fst))) := by
  constructor
  · intro hline hword constraints h run hrun hwithin constr hconstr
    exact misses.constraints_hold hline hword h hrun hwithin hconstr
  · intro hline hword constraints h run hrun hwithin constr hconstr
    exact stores.constraints_hold hline hword h hrun hwithin hconstr

section Examples

/-- A block is entered on an edge from another block. -/
def twoBlocks : StateGraph where
  getGraph := .ofEdges [(0, 1), (1, 2), (2, 3), (3, 4), (4, 0)]
  getInStates
    | 0 => [1]
    | 1 => [3]
    | _ => []
  getOutStates
    | 0 => [2]
    | 1 => [4]
    | _ => []
  getCallStates _ := []
  getReturnStates _ := []
  getContextOfState _ := none
  inStates_nodup bb := by
    split <;> decide
  callStates_nodup _ := List.nodup_nil
  returnStates_nodup _ := List.nodup_nil
  outStates_block := by
    intro bb bb' s h h'
    split at h <;> split at h' <;> simp_all
  callStates_outStates h := nomatch h

/-- An array of the given size at the start of a line. -/
def oneArray (size : Word) : StaticAddresses where
  arrayAnalysis := true
  glvar2addr _ := some 0x100
  getArraySize _ := size
  cpe2addr _ _ := none
  addr2values _ := none
  addr2symbol _ := none

/-- An access to the array. -/
def arrayAccess : Annotation := ⟨.array 0, [0], by decide⟩

/-- An access to its second line, or to the line behind it. -/
def elementAccess : Annotation := ⟨.ofAddress 0x110, [0], by decide⟩

def secondBlockMisses (size : Word) : StateGraphCacheMissProvider where
  stgr := twoBlocks
  edge2weight edge :=
    if edge = (3, 4) then some ⟨[0], [arrayAccess, elementAccess], by decide, by decide⟩ else none
  weight_inner := by
    intro edge h
    split_ifs at h with hedge
    · rw [hedge]
      decide
    · exact absurd rfl h
  staticAddresses := oneArray size
  cacheType := .data
  Ilinesize := 16
  Dlinesize := 16

def secondBlockStores (size : Word) : StateGraphDirtifyingStoreProvider where
  stgr := twoBlocks
  edge2weight edge := if edge = (3, 4) then some [arrayAccess, elementAccess] else none
  staticAddresses := oneArray size
  scopeInfo :=
    { getAllPersistenceScopes := [0]
      getEntryBasicBlocks := fun _ => [1]
      containsBasicBlock := fun _ bb => bb == 1
      scopes_nodup := by decide }
  controlFlow :=
    { machineBasicBlocks := [0, 1]
      getParent := fun _ => 0
      getNonEmptyPredecessorBasicBlocks := fun bb => if bb = 1 then [0] else []
      getNonEmptySuccessorBasicBlocks := fun bb => if bb = 0 then [1] else []
      getCallSitesInMBB := fun _ => []
      getPotentialCallees := fun _ => []
      getCallSites := fun _ => [] }
  Dlinesize := 16

/-- The block is entered, with its misses, once. -/
def missesOnce : PersistentPath :=
  [((0, 1), []), ((1, 2), []), ((2, 3), []),
    ((3, 4), [.entry 0, .access arrayAccess 16, .access elementAccess 17]), ((4, 0), [])]

def storesOnce : PersistentPath :=
  [((0, 1), []), ((1, 2), []), ((2, 3), [.entry 0]),
    ((3, 4), [.access arrayAccess 16, .access elementAccess 17]), ((4, 0), [])]

variable {P : StaticAddresses} {size : Word}

theorem touchesLine_arrayAccess (h : 0 < size.toNat) :
    TouchesLine (oneArray size) 16 arrayAccess.address 16 :=
  ⟨0x100, rfl, 0x100, le_rfl, Nat.lt_add_of_pos_right h, rfl⟩

theorem touchesLine_elementAccess : TouchesLine P 16 elementAccess.address 17 :=
  ⟨0x110, le_rfl, le_rfl, rfl⟩

theorem touchesLine_of_mem (h : 0 < size.toNat) {annot : Annotation} {line : ℕ}
    (hmem : .access annot line ∈
      [PersistenceEvent.access arrayAccess 16, .access elementAccess 17]) :
    TouchesLine (oneArray size) 16 annot.address line := by
  simp only [List.mem_cons, List.not_mem_nil, or_false, PersistenceEvent.access.injEq] at hmem
  rcases hmem with ⟨rfl, rfl⟩ | ⟨rfl, rfl⟩
  · exact touchesLine_arrayAccess h
  · exact touchesLine_elementAccess

theorem missesOnce_runs (h : 0 < size.toNat) : (secondBlockMisses size).Runs missesOnce where
  edges := by
    have hedges : ∀ step ∈ missesOnce, twoBlocks.getGraph.hasEdge step.1 := by decide
    exact hedges
  traverses := by
    intro step hstep
    simp only [missesOnce, List.mem_cons, List.not_mem_nil, or_false] at hstep
    rcases hstep with rfl | rfl | rfl | rfl | rfl
    · exact .nil
    · exact .nil
    · exact .nil
    · constructor
      · intro s
        change _ = List.count s [0]
        simp [List.count_cons]
      · exact List.Subperm.refl _
      · intro annot line hmem
        rcases List.mem_cons.mp hmem with hentry | hmem
        · cases hentry
        · exact touchesLine_of_mem h hmem
    · exact .nil
  once := by
    intro s
    by_cases hs : s = 0
    · subst hs
      decide
    · have hnil : (missesOnce.flatMap Prod.snd).filterMap (PersistenceEvent.useIn s) = [] := by
        simp [missesOnce, PersistenceEvent.useIn, arrayAccess, elementAccess, hs, Ne.symm hs]
      rw [hnil]
      trivial

theorem storesOnce_runs (h : 0 < size.toNat) : (secondBlockStores size).Runs storesOnce where
  edges := by
    have hedges : ∀ step ∈ storesOnce, twoBlocks.getGraph.hasEdge step.1 := by decide
    exact hedges
  traverses := by
    intro step hstep
    simp only [storesOnce, List.mem_cons, List.not_mem_nil, or_false] at hstep
    rcases hstep with rfl | rfl | rfl | rfl | rfl
    · exact .nil
    · exact .nil
    · constructor
      · intro s
        change _ = List.count s [0]
        simp [List.count_cons]
      · exact List.nil_subperm
      · intro annot line hmem
        cases hmem with
        | tail _ hmem => cases hmem
    · constructor
      · intro s
        change _ = List.count s []
        simp
      · exact List.Subperm.refl _
      · intro annot line hmem
        exact touchesLine_of_mem h hmem
    · exact .nil
  once := by
    intro s
    by_cases hs : s = 0
    · subst hs
      decide
    · have hnil : (storesOnce.flatMap Prod.snd).filterMap (PersistenceEvent.useIn s) = [] := by
        simp [storesOnce, PersistenceEvent.useIn, arrayAccess, elementAccess, hs, Ne.symm hs]
      rw [hnil]
      trivial

end Examples

/-- The line of the element is behind the array of one line, where it is added to it. -/
theorem element_behind_array :
    ((secondBlockMisses 16).Runs missesOnce ∧
      ∃ constraints, (secondBlockMisses 16).getPersistenceConstraints = .ok constraints ∧
        ∃ constr ∈ constraints, ¬constr.Satisfied (timesTaken (missesOnce.map Prod.fst))) ∧
    ((secondBlockStores 16).Runs storesOnce ∧
      ∃ constraints, (secondBlockStores 16).getPersistentDFSConstraints = .ok constraints ∧
        ∃ constr ∈ constraints, ¬constr.Satisfied (timesTaken (storesOnce.map Prod.fst))) := by
  refine ⟨⟨missesOnce_runs (by decide), _, rfl, ?_⟩, storesOnce_runs (by decide), _, rfl, ?_⟩
  · decide +kernel
  · decide +kernel

theorem isLineSize_16 : IsLineSize 16 := ⟨4, by decide, rfl⟩

/-- The array of one and a half lines: the element is in its second line. -/
theorem oneArray_words {edges : List GraphEdge} {annotated : GraphEdge → List Annotation}
    (s : PersistenceScope) (glvar : GlobalVariable)
    (_ : Annotated edges annotated s (.array glvar)) :
    ∃ base, (oneArray 24).getGlobalVarAddress glvar = .ok base ∧
      base.toNat + ((oneArray 24).getArraySize glvar).toNat < 2 ^ 32 ∧
      4 ≤ ((oneArray 24).getArraySize glvar).toNat ∧
      (base.toNat + ((oneArray 24).getArraySize glvar).toNat) % 4 = 0 ∧
      4 ≤ base.toNat % (16 : Word).toNat +
        ((oneArray 24).getArraySize glvar).toNat % (16 : Word).toNat := by
  refine ⟨0x100, rfl, ?_⟩
  change (256 + 24 < 2 ^ 32 ∧ 4 ≤ 24 ∧ (256 + 24) % 4 = 0 ∧ 4 ≤ 256 % 16 + 24 % 16)
  decide

theorem persistenceConstraints_hold_twoLines :
    (∃ constraints, (secondBlockMisses 24).getPersistenceConstraints = .ok constraints ∧
      ∀ constr ∈ constraints, constr.Satisfied (timesTaken (missesOnce.map Prod.fst))) ∧
    ∃ constraints, (secondBlockStores 24).getPersistentDFSConstraints = .ok constraints ∧
      ∀ constr ∈ constraints, constr.Satisfied (timesTaken (storesOnce.map Prod.fst)) := by
  obtain ⟨hmisses, hstores⟩ :=
    persistenceConstraints_hold (secondBlockMisses 24) (secondBlockStores 24)
  constructor
  · refine ⟨_, rfl, ?_⟩
    apply hmisses isLineSize_16 (by decide) _ rfl missesOnce (missesOnce_runs (by decide))
    intro step hstep
    exact withinArrays_of_words isLineSize_16 (by decide) oneArray_words
      ((missesOnce_runs (by decide)).traverses step hstep)
  · refine ⟨_, rfl, ?_⟩
    apply hstores isLineSize_16 (by decide) _ rfl storesOnce (storesOnce_runs (by decide))
    intro step hstep
    exact withinArrays_of_words isLineSize_16 (by decide) oneArray_words
      ((storesOnce_runs (by decide)).traverses step hstep)

end Llvmta
