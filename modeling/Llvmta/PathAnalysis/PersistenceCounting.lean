import Llvmta.Library.CheckedFold
import Llvmta.PathAnalysis.PersistenceEdges

/-!
# What the collected edges count

The value of a collected vector on a single edge is the number of the annotations of this
edge that it stands for: those with the address of a line, and for an array also those
with a line that is merged into it.
-/

namespace Llvmta

open Checked

/-- How often an edge is annotated, in a scope, with an address from a group. -/
def hits (group : DataAddress → Bool) (scope : PersistenceScope) (annotations : List Annotation) :
    ℤ :=
  (annotations.map fun annot =>
    if group annot.address then (annot.scopes.count scope : ℤ) else 0).sum

section Values

variable {edge e : GraphEdge} {c : ℤ} {v : VarCoeffVector}

@[simp] theorem taken_getEdgeVar :
    taken e (.getEdgeVar .timesTaken edge) = if edge = e then 1 else 0 := by
  unfold taken Variable.getEdgeVar
  simp

theorem value_taken_singleton :
    value (taken e) [(.getEdgeVar .timesTaken edge, c)] = if edge = e then c else 0 := by
  rw [value_cons, value_nil, taken_getEdgeVar]
  split_ifs <;> simp

end Values

section Lookup

variable {κ : Type} [LinearOrder κ] {m : ScopeMap κ} {s s' : PersistenceScope} {k k' : κ}
  {vc : Variable × ℤ} {x : Variable → ℤ}

theorem vectorAt_insert {m : OrderedMap κ VarCoeffVector} {v : VarCoeffVector} :
    vectorAt (m.insert k v) k' = if k = k' then v else vectorAt m k' := by
  unfold vectorAt
  rw [OrderedMap.find?_insert]
  split_ifs <;> rfl

theorem keysOf_push :
    (m.push s k vc).keysOf s' =
      if s = s' then (m.keysOf s).insert k (vectorAt (m.keysOf s) k ++ [vc]) else m.keysOf s' := by
  unfold ScopeMap.push ScopeMap.keysOf
  rw [OrderedMap.find?_insert]
  split_ifs <;> rfl

/-- A push extends one vector. -/
theorem value_push : value x (vectorAt ((m.push s k vc).keysOf s') k') =
    value x (vectorAt (m.keysOf s') k') + if s = s' ∧ k = k' then value x [vc] else 0 := by
  rw [keysOf_push]
  by_cases hs : s = s'
  · rw [if_pos hs, vectorAt_insert]
    by_cases hk : k = k'
    · subst hs
      subst hk
      rw [if_pos rfl, if_pos ⟨rfl, rfl⟩, value_append]
    · rw [if_neg hk, if_neg fun h => hk h.2, hs, add_zero]
  · rw [if_neg hs, if_neg fun h => hs h.1, add_zero]

end Lookup

section Collection

variable {edge e : GraphEdge} {maps maps' : PersistenceMaps} {s : PersistenceScope} {a : Word}
  {glvar : GlobalVariable} {addr : DataAddress} {annotations : List Annotation}

/-- The address of a single line. -/
def isLine (a : Word) (addr : DataAddress) : Bool := addr == .ofAddress a

def isArrayOf (glvar : GlobalVariable) (addr : DataAddress) : Bool := addr == .array glvar

theorem sum_count (scopes : List PersistenceScope) (c : ℤ) :
    (scopes.map fun scope => if scope = s then c else 0).sum = scopes.count s * c := by
  induction scopes with
  | nil => simp
  | cons scope scopes ih =>
    rw [List.map_cons, List.sum_cons, ih, List.count_cons]
    split_ifs with h h' h'
    · push_cast
      ring
    · exact absurd (beq_iff_eq.mpr h) h'
    · exact absurd (beq_iff_eq.mp h') h
    · simp

theorem addAccess_elements {scope : PersistenceScope}
    (h : PersistenceMaps.addAccess edge addr maps scope = .ok maps') :
    value (taken e) (vectorAt (maps'.scope2addr2edges.keysOf s) a) =
      value (taken e) (vectorAt (maps.scope2addr2edges.keysOf s) a) +
        if scope = s then (if isLine a addr ∧ edge = e then 1 else 0) else 0 := by
  unfold PersistenceMaps.addAccess at h
  cases addr with
  | array glvar =>
    cases h
    simp [isLine, DataAddress.ofAddress]
  | interval lower upper =>
    obtain ⟨_, hprecise, h⟩ := bind_eq_ok.mp h
    have hbounds := beq_iff_eq.mp (of_assertThat hprecise)
    cases h
    rw [value_push, value_taken_singleton]
    congr 1
    have hline : isLine a (.interval lower upper) = true ↔ lower = a := by
      rw [isLine, beq_iff_eq, DataAddress.ofAddress, DataAddress.interval.injEq, ← hbounds,
        and_self]
    simp only [hline]
    split_ifs <;> tauto

theorem addAccess_arrays {scope : PersistenceScope}
    (h : PersistenceMaps.addAccess edge addr maps scope = .ok maps') :
    value (taken e) (vectorAt (maps'.scope2array2edges.keysOf s) glvar) =
      value (taken e) (vectorAt (maps.scope2array2edges.keysOf s) glvar) +
        if scope = s then (if isArrayOf glvar addr ∧ edge = e then 1 else 0) else 0 := by
  unfold PersistenceMaps.addAccess at h
  cases addr with
  | array glvar' =>
    cases h
    rw [value_push, value_taken_singleton]
    congr 1
    have harray : isArrayOf glvar (.array glvar') = true ↔ glvar' = glvar := by
      rw [isArrayOf, beq_iff_eq, DataAddress.array.injEq]
    simp only [harray]
    split_ifs <;> tauto
  | interval lower upper =>
    obtain ⟨_, _, h⟩ := bind_eq_ok.mp h
    cases h
    simp [isArrayOf]

theorem addAccess_entered {scope : PersistenceScope}
    (h : PersistenceMaps.addAccess edge addr maps scope = .ok maps') :
    maps'.scope2enteredges = maps.scope2enteredges := by
  unfold PersistenceMaps.addAccess at h
  cases addr with
  | array glvar =>
    cases h
    rfl
  | interval lower upper =>
    obtain ⟨_, _, h⟩ := bind_eq_ok.mp h
    cases h
    rfl

theorem addAccess_arrayKeys {scope : PersistenceScope}
    (h : PersistenceMaps.addAccess edge addr maps scope = .ok maps') :
    (maps'.scope2array2edges.keysOf s).find? glvar ≠ none ↔
      (maps.scope2array2edges.keysOf s).find? glvar ≠ none ∨
        scope = s ∧ isArrayOf glvar addr = true := by
  unfold PersistenceMaps.addAccess at h
  cases addr with
  | array glvar' =>
    cases h
    dsimp only
    rw [keysOf_push]
    have harray : isArrayOf glvar (.array glvar') = true ↔ glvar' = glvar := by
      rw [isArrayOf, beq_iff_eq, DataAddress.array.injEq]
    rw [harray]
    by_cases hs : scope = s
    · rw [if_pos hs, OrderedMap.find?_insert]
      by_cases hg : glvar' = glvar
      · simp [hs, hg]
      · simp [hs, hg]
    · simp [hs]
  | interval lower upper =>
    obtain ⟨_, _, h⟩ := bind_eq_ok.mp h
    cases h
    simp [isArrayOf]

/-- What an iteration of the collection adds for an edge with these scopes and accesses. -/
structure Collects (edge : GraphEdge) (entered : List PersistenceScope)
    (annotations : List Annotation) (maps maps' : PersistenceMaps) : Prop where
  elements : ∀ e s a, value (taken e) (vectorAt (maps'.scope2addr2edges.keysOf s) a) =
    value (taken e) (vectorAt (maps.scope2addr2edges.keysOf s) a) +
      if edge = e then hits (isLine a) s annotations else 0
  arrays : ∀ e s glvar, value (taken e) (vectorAt (maps'.scope2array2edges.keysOf s) glvar) =
    value (taken e) (vectorAt (maps.scope2array2edges.keysOf s) glvar) +
      if edge = e then hits (isArrayOf glvar) s annotations else 0
  entered : ∀ e s, value (taken e) (vectorAt maps'.scope2enteredges s) =
    value (taken e) (vectorAt maps.scope2enteredges s) +
      if edge = e then -(entered.count s : ℤ) else 0
  arrayKeys : ∀ s glvar, (maps'.scope2array2edges.keysOf s).find? glvar ≠ none ↔
    (maps.scope2array2edges.keysOf s).find? glvar ≠ none ∨
      ∃ annot ∈ annotations, s ∈ annot.scopes ∧
        isArrayOf glvar annot.address = true

theorem ite_count_mul {p : Prop} [Decidable p] (n : ℕ) :
    (n : ℤ) * (if p ∧ edge = e then 1 else 0) =
      if edge = e then (if p then (n : ℤ) else 0) else 0 := by
  by_cases hp : p
  · by_cases he : edge = e
    · simp [hp, he]
    · simp [he]
  · simp [hp]

theorem sum_hits (group : DataAddress → Bool) (annotations : List Annotation) :
    (annotations.map fun annot => if edge = e then
      (if group annot.address then (annot.scopes.count s : ℤ) else 0) else 0).sum =
    if edge = e then hits group s annotations else 0 := by
  by_cases he : edge = e
  · simp only [if_pos he]
    rfl
  · simp [he]

theorem collects_annotations
    (h : annotations.foldlM (PersistenceMaps.addAnnotation edge) maps = .ok maps') :
    Collects edge [] annotations maps maps' := by
  constructor
  · intro e s a
    rw [← sum_hits]
    refine foldlM_sum (F := fun maps =>
      value (taken e) (vectorAt (maps.scope2addr2edges.keysOf s) a)) ?_ h
    intro maps annot maps' hstep
    rw [foldlM_sum (F := fun maps =>
      value (taken e) (vectorAt (maps.scope2addr2edges.keysOf s) a))
      (fun _ _ _ => addAccess_elements) hstep, sum_count, ite_count_mul]
  · intro e s glvar
    rw [← sum_hits]
    refine foldlM_sum (F := fun maps =>
      value (taken e) (vectorAt (maps.scope2array2edges.keysOf s) glvar)) ?_ h
    intro maps annot maps' hstep
    rw [foldlM_sum (F := fun maps =>
      value (taken e) (vectorAt (maps.scope2array2edges.keysOf s) glvar))
      (fun _ _ _ => addAccess_arrays) hstep, sum_count, ite_count_mul]
  · intro e s
    have hsame := foldlM_sum (A := fun _ : Annotation => 0) (F := fun maps : PersistenceMaps =>
      value (taken e) (vectorAt maps.scope2enteredges s)) (fun maps annot maps' hstep => by
        have hinner := foldlM_sum (A := fun _ : PersistenceScope => 0)
          (F := fun maps : PersistenceMaps =>
            value (taken e) (vectorAt maps.scope2enteredges s))
          (fun _ _ _ haccess => by rw [addAccess_entered haccess, add_zero]) hstep
        simpa using hinner) h
    simpa using hsame
  · intro s glvar
    rw [foldlM_adds (H := fun maps : PersistenceMaps =>
      (maps.scope2array2edges.keysOf s).find? glvar ≠ none) (A := fun annot : Annotation =>
        s ∈ annot.scopes ∧ isArrayOf glvar annot.address = true) ?_ h]
    intro maps annot maps' hstep
    have haccesses := foldlM_adds (H := fun maps : PersistenceMaps =>
      (maps.scope2array2edges.keysOf s).find? glvar ≠ none)
      (A := fun scope => scope = s ∧ isArrayOf glvar annot.address = true)
      (fun _ _ _ haccess => addAccess_arrayKeys haccess) hstep
    rw [haccesses]
    simp

theorem Collects.refl (edge : GraphEdge) (maps : PersistenceMaps) :
    Collects edge [] [] maps maps := collects_annotations rfl

theorem collects_entered (entered : List PersistenceScope) (maps : PersistenceMaps) :
    Collects edge entered [] maps (entered.foldl (PersistenceMaps.addEntered edge) maps) := by
  have hsame : ∀ maps : PersistenceMaps,
      (entered.foldl (PersistenceMaps.addEntered edge) maps).scope2addr2edges =
        maps.scope2addr2edges ∧
      (entered.foldl (PersistenceMaps.addEntered edge) maps).scope2array2edges =
        maps.scope2array2edges := by
    induction entered with
    | nil => exact fun _ => ⟨rfl, rfl⟩
    | cons scope entered ih => exact fun maps => ih (maps.addEntered edge scope)
  constructor
  · intro e s a
    rw [(hsame maps).1]
    simp [hits]
  · intro e s glvar
    rw [(hsame maps).2]
    simp [hits]
  · intro e s
    clear hsame
    induction entered generalizing maps with
    | nil => simp
    | cons scope entered ih =>
      rw [List.foldl_cons, ih, PersistenceMaps.addEntered]
      dsimp only
      rw [vectorAt_insert, List.count_cons]
      by_cases hscope : scope = s
      · rw [if_pos hscope, value_append, value_taken_singleton, if_pos (beq_iff_eq.mpr hscope),
          hscope]
        by_cases he : edge = e
        · simp only [if_pos he]
          push_cast
          ring
        · simp only [if_neg he, add_zero]
      · rw [if_neg hscope]
        simp [hscope]
  · intro s glvar
    rw [(hsame maps).2]
    simp

theorem Collects.trans {maps'' : PersistenceMaps} {entered : List PersistenceScope}
    (h : Collects edge entered [] maps maps') (h' : Collects edge [] annotations maps' maps'') :
    Collects edge entered annotations maps maps'' := by
  constructor
  · intro e s a
    rw [h'.elements, h.elements]
    simp [hits]
  · intro e s glvar
    rw [h'.arrays, h.arrays]
    simp [hits]
  · intro e s
    rw [h'.entered, h.entered]
    simp
  · intro s glvar
    rw [h'.arrayKeys, h.arrayKeys]
    simp

end Collection

section Graph

variable {edges : List GraphEdge} {maps : PersistenceMaps} {e : GraphEdge}
  {s : PersistenceScope} (entered : GraphEdge → List PersistenceScope)
  (annotations : GraphEdge → List Annotation)

/-- What the maps hold after the collection from all edges. -/
structure Collected (edges : List GraphEdge) (entered : GraphEdge → List PersistenceScope)
    (annotations : GraphEdge → List Annotation) (maps : PersistenceMaps) : Prop where
  elements : ∀ e s a, value (taken e) (vectorAt (maps.scope2addr2edges.keysOf s) a) =
    if e ∈ edges then hits (isLine a) s (annotations e) else 0
  arrays : ∀ e s glvar, value (taken e) (vectorAt (maps.scope2array2edges.keysOf s) glvar) =
    if e ∈ edges then hits (isArrayOf glvar) s (annotations e) else 0
  entered : ∀ e s, value (taken e) (vectorAt maps.scope2enteredges s) =
    if e ∈ edges then -((entered e).count s : ℤ) else 0
  arrayKeys : ∀ s glvar, (maps.scope2array2edges.keysOf s).find? glvar ≠ none ↔
    ∃ e ∈ edges, ∃ annot ∈ annotations e, s ∈ annot.scopes ∧
      isArrayOf glvar annot.address = true

theorem collected {step : PersistenceMaps → GraphEdge → Except Fault PersistenceMaps}
    (hstep : ∀ maps edge maps', step maps edge = .ok maps' →
      Collects edge (entered edge) (annotations edge) maps maps')
    (hedges : edges.Nodup) (h : edges.foldlM step .empty = .ok maps) :
    Collected edges entered annotations maps := by
  constructor
  · intro e s a
    have hsum := foldlM_sum (A := fun edge => if edge = e then
      hits (isLine a) s (annotations edge) else 0) (F := fun maps : PersistenceMaps =>
        value (taken e) (vectorAt (maps.scope2addr2edges.keysOf s) a))
      (fun maps edge maps' hok => (hstep maps edge maps' hok).elements e s a) h
    rw [hsum, sum_ite_eq hedges fun e => hits (isLine a) s (annotations e)]
    exact zero_add _
  · intro e s glvar
    have hsum := foldlM_sum (A := fun edge => if edge = e then
      hits (isArrayOf glvar) s (annotations edge) else 0) (F := fun maps : PersistenceMaps =>
        value (taken e) (vectorAt (maps.scope2array2edges.keysOf s) glvar))
      (fun maps edge maps' hok => (hstep maps edge maps' hok).arrays e s glvar) h
    rw [hsum, sum_ite_eq hedges fun e => hits (isArrayOf glvar) s (annotations e)]
    exact zero_add _
  · intro e s
    have hsum := foldlM_sum (A := fun edge => if edge = e then
      -((entered edge).count s : ℤ) else 0) (F := fun maps : PersistenceMaps =>
        value (taken e) (vectorAt maps.scope2enteredges s))
      (fun maps edge maps' hok => (hstep maps edge maps' hok).entered e s) h
    rw [hsum, sum_ite_eq hedges fun e => -((entered e).count s : ℤ)]
    exact zero_add _
  · intro s glvar
    rw [foldlM_adds (H := fun maps : PersistenceMaps =>
      (maps.scope2array2edges.keysOf s).find? glvar ≠ none)
      (fun maps edge maps' hok => (hstep maps edge maps' hok).arrayKeys s glvar) h]
    simp [PersistenceMaps.empty, ScopeMap.keysOf]

end Graph

section Merging

variable {P : StaticAddresses} {Dlinesize : Word} {group group' : DataAddress → Bool}
  {s : PersistenceScope} {annotations : List Annotation} {glvar : GlobalVariable}
  {x : Variable → ℤ}

theorem hits_nonneg : 0 ≤ hits group s annotations := by
  apply List.sum_nonneg
  intro n hn
  obtain ⟨annot, _, rfl⟩ := List.mem_map.mp hn
  split_ifs
  · exact Int.natCast_nonneg _
  · exact le_rfl

theorem ite_hits {p : Prop} [Decidable p] :
    (if p then hits group s annotations else 0) = hits group s (if p then annotations else []) := by
  split_ifs <;> rfl

theorem hits_mono (h : ∀ addr, group addr = true → group' addr = true) :
    hits group s annotations ≤ hits group' s annotations := by
  apply List.sum_le_sum
  intro annot _
  by_cases hgroup : group annot.address = true
  · rw [if_pos hgroup, if_pos (h _ hgroup)]
  · rw [if_neg hgroup]
    split_ifs
    · exact Int.natCast_nonneg _
    · exact le_rfl

theorem hits_or (h : ∀ addr, ¬(group addr = true ∧ group' addr = true)) :
    hits (fun addr => group addr || group' addr) s annotations =
      hits group s annotations + hits group' s annotations := by
  unfold hits
  rw [← List.sum_map_add]
  congr 1
  apply List.map_congr_left
  intro annot _
  by_cases hgroup : group annot.address = true
  · have hother : ¬group' annot.address = true := fun htrue => h _ ⟨hgroup, htrue⟩
    simp [hgroup, hother]
  · simp [hgroup]

/-- The addresses that are merged into an array. -/
def inRange (P : StaticAddresses) (Dlinesize : Word) (glvar : GlobalVariable) (a : Word) : Bool :=
  match P.getGlobalVarAddress glvar with
  | .ok addr =>
    let base := alignTo Dlinesize addr
    let last := alignTo Dlinesize (base + P.getArraySize glvar)
    !decide (a < base ∨ last < a)
  | .error _ => false

/-- The addresses whose accesses a vector stands for. -/
def groupOf (P : StaticAddresses) (Dlinesize : Word) : DataAddress → DataAddress → Bool
  | .interval lower _, addr => isLine lower addr
  | .array glvar, addr =>
    isArrayOf glvar addr ||
      match addr with
      | .interval lower upper => lower == upper && inRange P Dlinesize glvar lower
      | .array _ => false

theorem isLine_iff {a : Word} {addr : DataAddress} :
    isLine a addr = true ↔ addr = .interval a a := by
  rw [isLine, beq_iff_eq, DataAddress.ofAddress]

theorem sum_hits_isLine_le {keys : List Word} (hkeys : keys.Nodup) :
    (keys.map fun a => if inRange P Dlinesize glvar a = true then
        hits (isLine a) s annotations else 0).sum ≤
      hits (fun addr => keys.any fun a => inRange P Dlinesize glvar a && isLine a addr)
        s annotations := by
  induction keys with
  | nil => exact hits_nonneg
  | cons a keys ih =>
    obtain ⟨hnotin, hnodup⟩ := List.nodup_cons.mp hkeys
    have hrest := ih hnodup
    simp only [List.map_cons, List.sum_cons, List.any_cons]
    rw [hits_or]
    · have hfirst : (if inRange P Dlinesize glvar a = true then hits (isLine a) s annotations
          else 0) ≤ hits (fun addr => inRange P Dlinesize glvar a && isLine a addr)
            s annotations := by
        split_ifs with hrange
        · exact hits_mono fun addr haddr => by rw [hrange, haddr]; rfl
        · exact hits_nonneg
      omega
    · rintro addr ⟨hfirst, hlater⟩
      obtain ⟨b, hb, hline⟩ := List.any_eq_true.mp hlater
      have ha := isLine_iff.mp (Bool.and_eq_true_iff.mp hfirst).2
      have hb' := isLine_iff.mp (Bool.and_eq_true_iff.mp hline).2
      rw [ha] at hb'
      cases hb'
      exact hnotin hb

theorem value_mergeElements {addr2edges : OrderedMap Word VarCoeffVector} {vcv v : VarCoeffVector}
    (h : mergeElements P Dlinesize addr2edges glvar vcv = .ok v) :
    value x v = value x vcv + (addr2edges.entries.map fun e =>
      if inRange P Dlinesize glvar e.1 = true then value x e.2 else 0).sum := by
  obtain ⟨addr, haddr, hok⟩ := bind_eq_ok.mp h
  cases hok
  clear h
  unfold inRange
  rw [haddr]
  dsimp only
  generalize addr2edges.entries = entries
  induction entries generalizing vcv with
  | nil => simp
  | cons e entries ih =>
    rw [List.foldl_cons, ih, List.map_cons, List.sum_cons, ← add_assoc]
    congr 1
    split_ifs with hout hin hin
    · simp [hout] at hin
    · exact (add_zero _).symm
    · exact value_append
    · simp [hout] at hin

/-- The lines of a map that are merged into an array are hit as often as the array counts. -/
theorem sum_elements_le {addr2edges : OrderedMap Word VarCoeffVector}
    (h : ∀ a, value x (vectorAt addr2edges a) = hits (isLine a) s annotations) :
    (addr2edges.entries.map fun e =>
      if inRange P Dlinesize glvar e.1 = true then value x e.2 else 0).sum ≤
      hits (fun addr => addr2edges.keys.any fun a => inRange P Dlinesize glvar a && isLine a addr)
        s annotations := by
  have hkeys : addr2edges.keys.Nodup :=
    (List.pairwise_map.mpr addr2edges.sorted).imp fun hlt => ne_of_lt hlt
  have hvalues : (addr2edges.entries.map fun e =>
      if inRange P Dlinesize glvar e.1 = true then value x e.2 else 0) =
      addr2edges.keys.map fun a =>
        if inRange P Dlinesize glvar a = true then hits (isLine a) s annotations else 0 := by
    rw [OrderedMap.keys, List.map_map]
    apply List.map_congr_left
    intro e he
    have hfind : vectorAt addr2edges e.1 = e.2 := by
      have hsome : addr2edges.find? e.1 = some e.2 := OrderedMap.mem_entries_iff.mp he
      rw [vectorAt, hsome]
      rfl
    rw [Function.comp_apply, ← h e.1, hfind]
  rw [hvalues]
  exact sum_hits_isLine_le hkeys

theorem array_group_le (keys : List Word) :
    hits (isArrayOf glvar) s annotations +
        hits (fun addr => keys.any fun a => inRange P Dlinesize glvar a && isLine a addr)
          s annotations ≤
      hits (groupOf P Dlinesize (.array glvar)) s annotations := by
  rw [← hits_or]
  · apply hits_mono
    intro addr haddr
    rcases Bool.or_eq_true_iff.mp haddr with harray | hline
    · exact Bool.or_eq_true_iff.mpr (.inl harray)
    · obtain ⟨a, _, ha⟩ := List.any_eq_true.mp hline
      obtain ⟨hrange, ha⟩ := Bool.and_eq_true_iff.mp ha
      rw [isLine_iff.mp ha]
      simp [groupOf, hrange]
  · rintro addr ⟨harray, hline⟩
    obtain ⟨a, _, ha⟩ := List.any_eq_true.mp hline
    rw [isLine_iff.mp (Bool.and_eq_true_iff.mp ha).2] at harray
    simp [isArrayOf] at harray

variable {edges : List GraphEdge} {entered : GraphEdge → List PersistenceScope}
  {annotated : GraphEdge → List Annotation} {maps : PersistenceMaps}
  {merged : OrderedMap PersistenceScope PersistenceBlocks} {blocks : PersistenceBlocks}
  {addr : DataAddress} {v : VarCoeffVector}

/-- A line or array that is annotated persistent in a scope on some edge. -/
def Annotated (edges : List GraphEdge) (annotated : GraphEdge → List Annotation)
    (s : PersistenceScope) (addr : DataAddress) : Prop :=
  ∃ e ∈ edges, ∃ annot ∈ annotated e, s ∈ annot.scopes ∧ annot.address = addr

/-- A block of a scope is a line with its own edges or an array with those of its lines. -/
theorem mem_mergeScope {addr2edges : OrderedMap Word VarCoeffVector}
    {array2edges : OrderedMap GlobalVariable VarCoeffVector}
    (h : mergeScope P Dlinesize addr2edges array2edges = .ok blocks) (hv : (addr, v) ∈ blocks) :
    (∃ a, addr = .ofAddress a ∧ addr2edges.find? a = some v) ∨
      ∃ glvar own, addr = .array glvar ∧ array2edges.find? glvar = some own ∧
        mergeElements P Dlinesize addr2edges glvar own = .ok v := by
  obtain ⟨arrays, harrays, hok⟩ := bind_eq_ok.mp h
  cases hok
  rcases List.mem_append.mp hv with hline | harray
  · obtain ⟨⟨a, vcv⟩, hmem, heq⟩ := List.mem_map.mp hline
    cases heq
    exact .inl ⟨a, rfl, OrderedMap.mem_entries_iff.mp hmem⟩
  · obtain ⟨⟨glvar, vcv⟩, hmem, heq⟩ := List.mem_map.mp harray
    cases heq
    have hfind := OrderedMap.mem_entries_iff.mp hmem
    rcases OrderedMap.sequence_mapValues harrays glvar with
      ⟨_, hnone⟩ | ⟨own, vcv', hown, helements, hsome⟩
    · rw [hfind] at hnone
      cases hnone
    · rw [hfind] at hsome
      cases hsome
      exact .inr ⟨glvar, own, rfl, hown, helements⟩

theorem mergeScope_of_mergeArrays (h : mergeArrays P Dlinesize maps = .ok merged)
    (hblocks : merged.find? s = some blocks) :
    mergeScope P Dlinesize (maps.scope2addr2edges.keysOf s) (maps.scope2array2edges.keysOf s) =
      .ok blocks := by
  rcases OrderedMap.sequence_merge h s with ⟨_, _, hnone⟩ | ⟨c, hscope, hsome⟩
  · rw [hnone] at hblocks
    cases hblocks
  · rw [hsome] at hblocks
    cases hblocks
    exact hscope

theorem hits_ite_le {p : Prop} [Decidable p] :
    hits group s (if p then annotations else []) ≤ hits group s annotations := by
  split_ifs
  · exact le_rfl
  · exact hits_nonneg

/-- The vector of a line or an array counts at most the annotations of its group on each edge. -/
theorem value_mergeArrays (hmaps : Collected edges entered annotated maps)
    (h : mergeArrays P Dlinesize maps = .ok merged) (hblocks : merged.find? s = some blocks)
    (hv : (addr, v) ∈ blocks) (e : GraphEdge) :
    value (taken e) v ≤ hits (groupOf P Dlinesize addr) s (annotated e) := by
  apply le_trans _ (hits_ite_le (p := e ∈ edges))
  rcases mem_mergeScope (mergeScope_of_mergeArrays h hblocks) hv with
    ⟨a, rfl, hfind⟩ | ⟨glvar, own, rfl, hfind, helements⟩
  · have hvector : vectorAt (maps.scope2addr2edges.keysOf s) a = v :=
      congrArg (Option.getD · []) hfind
    rw [← hvector, hmaps.elements, ite_hits]
    exact le_rfl
  · have hvector : vectorAt (maps.scope2array2edges.keysOf s) glvar = own :=
      congrArg (Option.getD · []) hfind
    rw [value_mergeElements helements, ← hvector, hmaps.arrays, ite_hits]
    calc _ ≤ _ := by
          apply add_le_add_right
          exact sum_elements_le fun a => by rw [hmaps.elements, ite_hits]
      _ ≤ _ := array_group_le _

/-- The arrays among the blocks are annotated. -/
theorem address_of_mergeArrays (hmaps : Collected edges entered annotated maps)
    (h : mergeArrays P Dlinesize maps = .ok merged) (hblocks : merged.find? s = some blocks)
    (hv : (addr, v) ∈ blocks) :
    (∃ a, addr = .ofAddress a) ∨
      ∃ glvar, addr = .array glvar ∧ Annotated edges annotated s addr := by
  rcases mem_mergeScope (mergeScope_of_mergeArrays h hblocks) hv with
    ⟨a, haddr, _⟩ | ⟨glvar, own, haddr, hfind, _⟩
  · exact .inl ⟨a, haddr⟩
  · obtain ⟨e, he, annot, hmem, hscope, harray⟩ :=
      (hmaps.arrayKeys s glvar).mp (by rw [hfind]; exact Option.some_ne_none _)
    exact .inr ⟨glvar, haddr, e, he, annot, hmem, hscope,
      haddr ▸ beq_iff_eq.mp harray⟩

end Merging

end Llvmta
