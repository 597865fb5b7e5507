import Llvmta.PartitionUtil.DirectiveHeuristics

/-!
# Contexts along interprocedural paths

Along a path the context of a block is the one its function has been called in, followed
by the token of the function and one token for each loop around the block, the outermost
first. An edge leaves the innermost of these loops, is a back edge of at most the
innermost one that remains, and enters loops that are added innermost.
-/

namespace Llvmta

open Checked

section Lists

variable {α : Type}

/-- If what satisfies `p` and `q` comes first among what satisfies `p`, the selection of `p`
falls into two parts. -/
theorem filter_split {p q : α → Bool} {l : List α}
    (h : l.Pairwise fun x y => p x = true → p y = true → q y = true → q x = true) :
    l.filter p = l.filter (fun x => p x && q x) ++ l.filter fun x => p x && !q x := by
  induction l with
  | nil => rfl
  | cons x l ih =>
    rw [List.pairwise_cons] at h
    cases hp : p x with
    | false => simp [hp, ih h.2]
    | true =>
      cases hq : q x with
      | true => simp [hp, hq, ih h.2]
      | false =>
        have hnone : l.filter (fun y => p y && q y) = [] := by
          rw [List.filter_eq_nil_iff]
          intro y hy hpq
          obtain ⟨hpy, hqy⟩ := Bool.and_eq_true_iff.mp hpq
          rw [h.1 y hy hp hpy hqy] at hq
          cases hq
        simp [hp, hq, ih h.2, hnone]

end Lists

mutual

/-- The loops of a tree in the order in which they are annotated. -/
def LoopTree.visit : LoopTree → List MachineLoop
  | .node loop getSubLoops => loop :: LoopTree.visitAll getSubLoops

def LoopTree.visitAll : List LoopTree → List MachineLoop
  | [] => []
  | tree :: trees => tree.visit ++ LoopTree.visitAll trees

end

namespace FunctionLoops

/-- All loops of the function, a loop before its sub loops. -/
def allLoops (F : FunctionLoops) : List MachineLoop := LoopTree.visitAll F.loops

/-- The loops are natural ones, and the function starts with a block without predecessors. -/
structure Natural (F : FunctionLoops) : Prop where
  /-- a loop that comes later is a sub loop without the header, or disjoint -/
  nested : F.allLoops.Pairwise fun outer inner =>
    (∀ bb, inner.contains bb = true → outer.contains bb = true) ∧
        inner.contains outer.getHeader = false ∨
      ∀ bb, outer.contains bb = true → inner.contains bb = false
  header_mem : ∀ loop ∈ F.allLoops, loop.contains loop.getHeader = true
  /-- a loop is entered at its header -/
  entered_at_header : ∀ loop ∈ F.allLoops, ∀ e ∈ F.edges, loop.contains e.2 = true →
    loop.contains e.1 = false → e.2 = loop.getHeader
  /-- the header has a back edge, and the other blocks are reached from it -/
  has_pred : ∀ loop ∈ F.allLoops, ∀ bb, loop.contains bb = true → ∃ e ∈ F.edges, e.2 = bb
  entry_pred_empty : ∀ e ∈ F.edges, e.2 ≠ F.entry

/-- The loops around a block, the outermost first. -/
def loopsAround (F : FunctionLoops) (bb : MachineBasicBlock) : List MachineLoop :=
  F.allLoops.filter (·.contains bb)

end FunctionLoops

/-- The number of back edges taken since the loop was entered on a path, which lists its
youngest edge first. -/
def backEdgesTaken (loop : MachineLoop) : List MBBedge → ℕ
  | [] => 0
  | e :: earlier =>
    if loop.contains e.1 && loop.contains e.2 then
      if e.2 = loop.getHeader then backEdgesTaken loop earlier + 1 else backEdgesTaken loop earlier
    else 0

/-- The token of a loop after a number of back edges. -/
def iterationToken (opts : ContextOptions) (edges : List MBBedge) (taken : ℕ)
    (loop : MachineLoop) : PartitionToken :=
  if taken < opts.loopPeel then .loopPeel loop (getBackEdgesOfLoop edges loop) taken
  else .loopIter loop (getBackEdgesOfLoop edges loop) opts.loopPeel

/-- The tokens of the loops around a block after a path. -/
def loopTokensAt (opts : ContextOptions) (F : FunctionLoops) (path : List MBBedge)
    (bb : MachineBasicBlock) : List PartitionToken :=
  (F.loopsAround bb).map fun loop => iterationToken opts F.edges (backEdgesTaken loop path) loop

section Directives

variable {opts : ContextOptions} {edges : List MBBedge} {loop : MachineLoop} {n : ℕ}
  {direcs : EdgeDirectives} {loops : List MachineLoop} {tokens : List PartitionToken}
  {e : MBBedge}

mutual

theorem annotateLoopDirective_eq (direcs : EdgeDirectives) : (tree : LoopTree) →
    annotateLoopDirective opts edges direcs tree =
      tree.visit.foldl (annotateLoop opts edges) direcs
  | .node loop getSubLoops => by
    rw [annotateLoopDirective, LoopTree.visit, List.foldl_cons, annotateSubLoops_eq]

theorem annotateSubLoops_eq (direcs : EdgeDirectives) : (trees : List LoopTree) →
    annotateSubLoops opts edges direcs trees =
      (LoopTree.visitAll trees).foldl (annotateLoop opts edges) direcs
  | [] => rfl
  | tree :: trees => by
    rw [annotateSubLoops, LoopTree.visitAll, List.foldl_append, annotateLoopDirective_eq,
      annotateSubLoops_eq]

end

theorem directiveEnterBBEdge_annotate :
    (loops.foldl (annotateLoop opts edges) direcs).directiveEnterBBEdge e =
      ((loops.filter fun loop => decide (e ∈ getExitingEdgesOfLoop edges loop)).map
        fun loop => ⟨.merge, tokensOfLoop opts edges loop⟩).reverse ++
        direcs.directiveEnterBBEdge e := by
  induction loops generalizing direcs with
  | nil => rfl
  | cons loop loops ih =>
    rw [List.foldl_cons, ih]
    by_cases he : e ∈ getExitingEdgesOfLoop edges loop
    · simp [annotateLoop, EdgeDirectives.addEnter, EdgeDirectives.addLeave, he]
    · simp [annotateLoop, EdgeDirectives.addEnter, EdgeDirectives.addLeave, he]

theorem directiveLeaveBBEdge_annotate :
    (loops.foldl (annotateLoop opts edges) direcs).directiveLeaveBBEdge e =
      direcs.directiveLeaveBBEdge e ++
        (loops.filter fun loop => decide (e ∈ getIncomingEdgesOfLoop edges loop)).map
          fun loop => ⟨.create, tokensOfLoop opts edges loop⟩ := by
  induction loops generalizing direcs with
  | nil => simp
  | cons loop loops ih =>
    rw [List.foldl_cons, ih]
    by_cases he : e ∈ getIncomingEdgesOfLoop edges loop
    · simp [annotateLoop, EdgeDirectives.addEnter, EdgeDirectives.addLeave, he]
    · simp [annotateLoop, EdgeDirectives.addEnter, EdgeDirectives.addLeave, he]

theorem iterationToken_mem : iterationToken opts edges n loop ∈ tokensOfLoop opts edges loop := by
  unfold iterationToken tokensOfLoop loopTokens
  split_ifs with hn
  · exact List.mem_append_left _ (List.mem_map_of_mem (List.mem_range.mpr hn))
  · exact List.mem_append_right _ (List.mem_singleton_self _)

/-- The token that a loop directive creates is the one of the first iteration. -/
theorem createdToken_tokensOfLoop (hpeel : 0 < opts.loopPeel) :
    Context.createdToken (tokensOfLoop opts edges loop) =
      .ok (some (iterationToken opts edges 0 loop)) := by
  obtain ⟨k, hk⟩ := Nat.exists_eq_add_one.mpr hpeel
  simp [tokensOfLoop, loopTokens, hk, List.range_succ_eq_map, Context.createdToken, iterationToken]

theorem merge_append {token : PartitionToken} {labels : List PartitionToken}
    (h : token ∈ labels) : (⟨tokens ++ [token]⟩ : Context).merge labels = .ok ⟨tokens⟩ := by
  simp [Context.merge, h]

/-- The directives that merge loops take their tokens off, the innermost first. -/
theorem foldlM_merge (taken : MachineLoop → ℕ) :
    ((loops.map fun loop => (⟨.merge, tokensOfLoop opts edges loop⟩ : Directive)).reverse).foldlM
      Context.update ⟨tokens ++ loops.map fun loop => iterationToken opts edges (taken loop) loop⟩
      = .ok ⟨tokens⟩ := by
  induction loops using List.reverseRecOn with
  | nil => simp [pure, Except.pure]
  | append_singleton loops loop ih =>
    simp only [List.map_append, List.map_singleton, List.reverse_append, List.reverse_singleton,
      List.singleton_append, List.foldlM_cons, ← List.append_assoc]
    have hmerge : Context.update ⟨(tokens ++ loops.map fun loop =>
          iterationToken opts edges (taken loop) loop) ++
          [iterationToken opts edges (taken loop) loop]⟩
        ⟨.merge, tokensOfLoop opts edges loop⟩ =
        .ok ⟨tokens ++ loops.map fun loop => iterationToken opts edges (taken loop) loop⟩ :=
      merge_append iterationToken_mem
    rw [hmerge]
    exact ih

/-- The directives that create loops put the tokens of first iterations on top. -/
theorem foldlM_create (hpeel : 0 < opts.loopPeel) :
    (loops.map fun loop => (⟨.create, tokensOfLoop opts edges loop⟩ : Directive)).foldlM
      Context.update ⟨tokens⟩ =
      .ok ⟨tokens ++ loops.map fun loop => iterationToken opts edges 0 loop⟩ := by
  induction loops generalizing tokens with
  | nil => simp [pure, Except.pure]
  | cons loop loops ih =>
    rw [List.map_cons, List.foldlM_cons]
    have hcreate : Context.update ⟨tokens⟩ ⟨.create, tokensOfLoop opts edges loop⟩ =
        .ok ⟨tokens ++ [iterationToken opts edges 0 loop]⟩ := by
      simp [Context.update, Context.create, createdToken_tokensOfLoop hpeel, Except.map]
    rw [hcreate]
    exact ih.trans (by simp)

end Directives

section Edge

variable {opts : ContextOptions} {F : FunctionLoops} {tokens : List PartitionToken}
  {path : List MBBedge} {e : MBBedge} {loop : MachineLoop}

namespace FunctionLoops

/-- The loops around the target of an edge that are around its source as well. -/
def loopsKept (F : FunctionLoops) (e : MBBedge) : List MachineLoop :=
  F.allLoops.filter fun loop => loop.contains e.1 && loop.contains e.2

def loopsLeft (F : FunctionLoops) (e : MBBedge) : List MachineLoop :=
  F.allLoops.filter fun loop => loop.contains e.1 && !loop.contains e.2

def loopsEntered (F : FunctionLoops) (e : MBBedge) : List MachineLoop :=
  F.allLoops.filter fun loop => loop.contains e.2 && !loop.contains e.1

/-- Of two loops around a block, the later one is inside the earlier one. -/
theorem nested_of_contains (hF : F.Natural) (bb : MachineBasicBlock) :
    F.allLoops.Pairwise fun outer inner => outer.contains bb = true → inner.contains bb = true →
      (∀ bb', inner.contains bb' = true → outer.contains bb' = true) ∧
        inner.contains outer.getHeader = false := by
  refine hF.nested.imp ?_
  rintro outer inner (hnested | hdisjoint) houter hinner
  · exact hnested
  · cases (hdisjoint bb houter).symm.trans hinner

/-- The loops that an edge leaves are the innermost ones around its source. -/
theorem loopsAround_source (hF : F.Natural) (e : MBBedge) :
    F.loopsAround e.1 = F.loopsKept e ++ F.loopsLeft e := by
  apply filter_split
  refine (nested_of_contains hF e.1).imp ?_
  intro outer inner hnested houter hinner
  exact (hnested houter hinner).1 e.2

/-- The loops that an edge enters are the innermost ones around its target. -/
theorem loopsAround_target (hF : F.Natural) (e : MBBedge) :
    F.loopsAround e.2 = F.loopsKept e ++ F.loopsEntered e := by
  have hsplit : F.loopsAround e.2 =
      (F.allLoops.filter fun loop => loop.contains e.2 && loop.contains e.1) ++
        F.loopsEntered e := by
    apply filter_split
    refine (nested_of_contains hF e.2).imp ?_
    intro outer inner hnested houter hinner
    exact (hnested houter hinner).1 e.1
  rw [hsplit, loopsKept]
  simp only [Bool.and_comm]

/-- No loop is around the block that the function starts with. -/
theorem loopsAround_entry (hF : F.Natural) : F.loopsAround F.entry = [] := by
  rw [loopsAround, List.filter_eq_nil_iff]
  intro loop hloop hcontains
  obtain ⟨e, he, htarget⟩ := hF.has_pred loop hloop F.entry hcontains
  exact hF.entry_pred_empty e he htarget

theorem directiveEnterBBEdge_eq (hpeel : 0 < opts.loopPeel) (he : e ∈ F.edges) :
    (F.edgeDirectives opts).directiveEnterBBEdge e =
      ((F.loopsLeft e).map fun loop => ⟨.merge, tokensOfLoop opts F.edges loop⟩).reverse := by
  rw [edgeDirectives, if_pos hpeel, annotateSubLoops_eq, directiveEnterBBEdge_annotate]
  have hexits : ∀ loop, decide (e ∈ getExitingEdgesOfLoop F.edges loop) =
      (loop.contains e.1 && !loop.contains e.2) := by
    intro loop
    simp [getExitingEdgesOfLoop, he]
  simp only [hexits]
  exact List.append_nil _

theorem directiveLeaveBBEdge_eq (hF : F.Natural) (hpeel : 0 < opts.loopPeel) (he : e ∈ F.edges) :
    (F.edgeDirectives opts).directiveLeaveBBEdge e =
      (F.loopsEntered e).map fun loop => ⟨.create, tokensOfLoop opts F.edges loop⟩ := by
  rw [edgeDirectives, if_pos hpeel, annotateSubLoops_eq, directiveLeaveBBEdge_annotate]
  have henters : ∀ loop ∈ F.allLoops, decide (e ∈ getIncomingEdgesOfLoop F.edges loop) =
      (loop.contains e.2 && !loop.contains e.1) := by
    intro loop hloop
    cases hsource : loop.contains e.1 with
    | true => simp [getIncomingEdgesOfLoop, hsource]
    | false =>
      cases htarget : loop.contains e.2 with
      | true =>
        have hheader := hF.entered_at_header loop hloop e he htarget hsource
        simp [getIncomingEdgesOfLoop, he, hheader, hsource]
      | false =>
        have hheader : e.2 ≠ loop.getHeader := by
          intro hheader
          rw [hheader, hF.header_mem loop hloop] at htarget
          cases htarget
        simp [getIncomingEdgesOfLoop, hheader]
  have hfilter : (F.allLoops.filter fun loop => decide (e ∈ getIncomingEdgesOfLoop F.edges loop)) =
      F.loopsEntered e := List.filter_congr henters
  rw [← hfilter]
  exact List.nil_append _

end FunctionLoops

theorem mem_getBackEdgesOfLoop (he : e ∈ F.edges) (hsource : loop.contains e.1 = true) :
    e ∈ getBackEdgesOfLoop F.edges loop ↔ e.2 = loop.getHeader := by
  simp [getBackEdgesOfLoop, he, hsource]

/-- The tokens of a loop contain the one of the next iteration. -/
theorem find?_loopTokens {backedges : List MBBedge} {n : ℕ} (hn : n < opts.loopPeel) :
    (loopTokens opts.loopPeel loop backedges).find? (PartitionToken.isIteration (n + 1)) =
      some (if n + 1 < opts.loopPeel then .loopPeel loop backedges (n + 1)
        else .loopIter loop backedges opts.loopPeel) := by
  unfold loopTokens
  rw [List.find?_append, List.find?_map]
  split_ifs with hlast
  · have hrange : (List.range opts.loopPeel).find?
        (PartitionToken.isIteration (n + 1) ∘ PartitionToken.loopPeel loop backedges) =
        some (n + 1) := by
      rw [List.find?_range_eq_some]
      refine ⟨by simp [PartitionToken.isIteration], List.mem_range.mpr hlast, ?_⟩
      intro j hj
      have hne : j ≠ n + 1 := by omega
      simp [PartitionToken.isIteration, hne]
    rw [hrange]
    rfl
  · have hrange : (List.range opts.loopPeel).find?
        (PartitionToken.isIteration (n + 1) ∘ PartitionToken.loopPeel loop backedges) = none := by
      rw [List.find?_eq_none]
      intro j hj
      have hne : j ≠ n + 1 := by
        have := List.mem_range.mp hj
        omega
      simp [PartitionToken.isIteration, hne]
    have heq : opts.loopPeel = n + 1 := by omega
    rw [hrange]
    simp [PartitionToken.isIteration, heq]

/-- Taking a back edge advances the token of its loop. -/
theorem transfer_backedge (he : e ∈ F.edges) (hsource : loop.contains e.1 = true)
    (hheader : e.2 = loop.getHeader) (n : ℕ) :
    Context.transfer opts.loopPeel ⟨tokens ++ [iterationToken opts F.edges n loop]⟩ e =
      .ok ⟨tokens ++ [iterationToken opts F.edges (n + 1) loop]⟩ := by
  have hmem := (mem_getBackEdgesOfLoop he hsource).mpr hheader
  unfold iterationToken
  by_cases hn : n < opts.loopPeel
  · simp [Context.transfer, hn, hmem, find?_loopTokens hn]
  · have hn' : ¬ n + 1 < opts.loopPeel := by omega
    simp [Context.transfer, hn, hn']

/-- Taking another edge leaves the token of a loop as it is. -/
theorem transfer_inner (he : e ∈ F.edges) (hsource : loop.contains e.1 = true)
    (hheader : e.2 ≠ loop.getHeader) (n : ℕ) :
    Context.transfer opts.loopPeel ⟨tokens ++ [iterationToken opts F.edges n loop]⟩ e =
      .ok ⟨tokens ++ [iterationToken opts F.edges n loop]⟩ := by
  have hmem : e ∉ getBackEdgesOfLoop F.edges loop := by
    rw [mem_getBackEdgesOfLoop he hsource]
    exact hheader
  unfold iterationToken
  by_cases hn : n < opts.loopPeel
  · simp [Context.transfer, hn, hmem]
  · simp [Context.transfer, hn]

/-- The edge into a header is not a back edge of the loops around it. -/
theorem backEdgesTaken_outer (hsource : loop.contains e.1 = true)
    (htarget : loop.contains e.2 = true) (hheader : e.2 ≠ loop.getHeader) :
    backEdgesTaken loop (e :: path) = backEdgesTaken loop path := by
  simp [backEdgesTaken, hsource, htarget, hheader]

theorem backEdgesTaken_backedge (hsource : loop.contains e.1 = true)
    (htarget : loop.contains e.2 = true) (hheader : e.2 = loop.getHeader) :
    backEdgesTaken loop (e :: path) = backEdgesTaken loop path + 1 := by
  rw [backEdgesTaken, hsource, htarget, if_pos hheader]
  rfl

/-- Taking an edge advances the loops of which it is a back edge: at most the innermost of
those that are kept. -/
theorem transfer_loopsKept (hF : F.Natural) (he : e ∈ F.edges) :
    Context.transfer opts.loopPeel ⟨tokens ++ .funCallee F.function ::
        (F.loopsKept e).map fun loop =>
          iterationToken opts F.edges (backEdgesTaken loop path) loop⟩ e =
      .ok ⟨tokens ++ .funCallee F.function :: (F.loopsKept e).map fun loop =>
          iterationToken opts F.edges (backEdgesTaken loop (e :: path)) loop⟩ := by
  have hkept : ∀ loop ∈ F.loopsKept e, loop.contains e.1 = true ∧ loop.contains e.2 = true := by
    intro loop hloop
    exact Bool.and_eq_true_iff.mp (List.mem_filter.mp hloop).2
  have hnested : (F.loopsKept e).Pairwise fun outer inner =>
      outer.contains e.2 = true → inner.contains e.2 = true →
        (∀ bb', inner.contains bb' = true → outer.contains bb' = true) ∧
          inner.contains outer.getHeader = false :=
    (FunctionLoops.nested_of_contains hF e.2).filter _
  obtain hnil | ⟨outers, inner, hsplit⟩ := (F.loopsKept e).eq_nil_or_concat
  · simp [hnil, Context.transfer]
  · rw [List.concat_eq_append] at hsplit
    rw [hsplit] at hkept hnested ⊢
    have houters : ∀ outer ∈ outers, backEdgesTaken outer (e :: path) =
        backEdgesTaken outer path := by
      intro outer houter
      have hcontains := hkept outer (List.mem_append_left _ houter)
      have hinner := hkept inner (List.mem_append_right _ (List.mem_singleton_self _))
      refine backEdgesTaken_outer hcontains.1 hcontains.2 fun hheader => ?_
      have hpair := (List.pairwise_append.mp hnested).2.2 outer houter inner
        (List.mem_singleton_self _)
      have houtside := (hpair hcontains.2 hinner.2).2
      rw [← hheader, hinner.2] at houtside
      cases houtside
    have hmap : (outers.map fun loop =>
        iterationToken opts F.edges (backEdgesTaken loop (e :: path)) loop) =
        outers.map fun loop => iterationToken opts F.edges (backEdgesTaken loop path) loop := by
      apply List.map_congr_left
      intro outer houter
      rw [houters outer houter]
    obtain ⟨hsource, htarget⟩ := hkept inner (List.mem_append_right _ (List.mem_singleton_self _))
    rw [List.map_append, List.map_append, hmap, List.map_singleton, List.map_singleton,
      ← List.cons_append, ← List.append_assoc]
    by_cases hheader : e.2 = inner.getHeader
    · rw [transfer_backedge he hsource hheader, backEdgesTaken_backedge hsource htarget hheader]
      simp
    · rw [transfer_inner he hsource hheader, backEdgesTaken_outer hsource htarget hheader]
      simp

/-- An edge turns the context of its source into the one of its target. -/
theorem takeEdge_eq (hF : F.Natural) (hpeel : 0 < opts.loopPeel) (he : e ∈ F.edges) :
    F.takeEdge opts e ⟨tokens ++ .funCallee F.function :: loopTokensAt opts F path e.1⟩ =
      .ok ⟨tokens ++ .funCallee F.function :: loopTokensAt opts F (e :: path) e.2⟩ := by
  have hentered : ∀ loop ∈ F.loopsEntered e, backEdgesTaken loop (e :: path) = 0 := by
    intro loop hloop
    have hcontains := (Bool.and_eq_true_iff.mp (List.mem_filter.mp hloop).2).2
    have houtside : loop.contains e.1 = false := by simpa using hcontains
    simp [backEdgesTaken, houtside]
  have hnew : ((F.loopsEntered e).map fun loop =>
      iterationToken opts F.edges (backEdgesTaken loop (e :: path)) loop) =
      (F.loopsEntered e).map fun loop => iterationToken opts F.edges 0 loop := by
    apply List.map_congr_left
    intro loop hloop
    rw [hentered loop hloop]
  unfold FunctionLoops.takeEdge
  rw [FunctionLoops.directiveEnterBBEdge_eq hpeel he,
    FunctionLoops.directiveLeaveBBEdge_eq hF hpeel he]
  unfold loopTokensAt
  rw [FunctionLoops.loopsAround_source hF e, FunctionLoops.loopsAround_target hF e,
    List.map_append, List.map_append, hnew, ← List.cons_append, ← List.append_assoc,
    foldlM_merge, ok_bind, transfer_loopsKept hF he, ok_bind, foldlM_create hpeel,
    List.append_assoc, List.cons_append]

/-- Without peeling there are no directives on edges. -/
theorem takeEdge_unpeeled (hpeel : opts.loopPeel = 0) :
    F.takeEdge opts e ⟨tokens ++ [.funCallee F.function]⟩ =
      .ok ⟨tokens ++ [.funCallee F.function]⟩ := by
  simp [FunctionLoops.takeEdge, FunctionLoops.edgeDirectives, hpeel, EdgeDirectives.empty,
    Context.transfer, pure, Except.pure, bind, Except.bind]

end Edge

/-- A function that is being executed. -/
structure Frame where
  function : FunctionLoops
  /-- the reduced context of the call -/
  reducedCtx : Context
  /-- potential callees of the call that were handled before and whose information changed -/
  handledBefore : List FunctionLoops
  /-- the edges taken since the call, the youngest first -/
  path : List MBBedge
  block : MachineBasicBlock
  context : Context

/-- The functions of a program that are being executed along an interprocedural path: the
one on top, and below it the calls that have not returned. The analysis driver updates the
reduced context of a call for each potential callee whose information changes. -/
inductive ContextRun (opts : ContextOptions) (program : List FunctionLoops) :
    Frame → List (CallSite × Frame) → Prop
  | start {F : FunctionLoops} (hF : F ∈ program) {context : Context}
    (hcallee : Context.update ⟨[]⟩ F.directiveOnCall = .ok context) :
    ContextRun opts program ⟨F, ⟨[]⟩, [], [], F.entry, context⟩ []
  | edge {fr : Frame} {waiting : List (CallSite × Frame)} (h : ContextRun opts program fr waiting)
    {e : MBBedge} (he : e ∈ fr.function.edges) (hsource : e.1 = fr.block) {context : Context}
    (hedge : fr.function.takeEdge opts e fr.context = .ok context) :
    ContextRun opts program { fr with path := e :: fr.path, block := e.2, context } waiting
  | call {fr : Frame} {waiting : List (CallSite × Frame)} (h : ContextRun opts program fr waiting)
    (callInstr : CallSite) {F : FunctionLoops} (hF : F ∈ program)
    (handledBefore : List FunctionLoops) {before reducedCtx calleeCtx context : Context}
    (hbefore : fr.context.update (directiveBeforeInstr callInstr) = .ok before)
    (hreduce : before.reduceOnCall opts = .ok reducedCtx)
    (hhandled : (handledBefore.map FunctionLoops.directiveOnCall).foldlM Context.update reducedCtx
      = .ok calleeCtx)
    (hcallee : calleeCtx.update F.directiveOnCall = .ok context) :
    ContextRun opts program ⟨F, reducedCtx, handledBefore, [], F.entry, context⟩
      ((callInstr, { fr with context := before }) :: waiting)
  | callExternal {fr : Frame} {waiting : List (CallSite × Frame)}
    (h : ContextRun opts program fr waiting) (callInstr : CallSite) {before context : Context}
    (hbefore : fr.context.update (directiveBeforeInstr callInstr) = .ok before)
    (hafter : before.update (directiveAfterInstr callInstr) = .ok context) :
    ContextRun opts program { fr with context } waiting
  | return {fr caller : Frame} {waiting : List (CallSite × Frame)} {callInstr : CallSite}
    (h : ContextRun opts program fr ((callInstr, caller) :: waiting)) {context : Context}
    (hafter : caller.context.update (directiveAfterInstr callInstr) = .ok context) :
    ContextRun opts program { caller with context } waiting

section Runs

variable {opts : ContextOptions} {program : List FunctionLoops} {fr : Frame}
  {waiting : List (CallSite × Frame)}

/-- The tokens of the loops around the block, if loops are peeled. -/
def Frame.localTokens (opts : ContextOptions) (fr : Frame) : List PartitionToken :=
  if 0 < opts.loopPeel then loopTokensAt opts fr.function fr.path fr.block else []

/-- The tokens that a call and the loops in the called function put on a context. -/
def Frame.expectedTokens (opts : ContextOptions) (fr : Frame) : List PartitionToken :=
  fr.reducedCtx.getTokenList ++ fr.handledBefore.map (fun F => .funCallee F.function) ++
    .funCallee fr.function.function :: fr.localTokens opts

/-- The context of a function of the program is the one that is expected, up to tokens on
top. -/
structure Frame.Expected (opts : ContextOptions) (program : List FunctionLoops)
    (onTop : List PartitionToken) (fr : Frame) : Prop where
  mem : fr.function ∈ program
  context_eq : fr.context = ⟨fr.expectedTokens opts ++ onTop⟩

theorem update_create {tokens : List PartitionToken} {token : PartitionToken} (h : token.isCallSite || token.isFunCallee) :
    Context.update ⟨tokens⟩ ⟨.create, [token]⟩ = .ok ⟨tokens ++ [token]⟩ := by
  cases token <;> first | rfl | cases h

theorem foldlM_directiveOnCall {tokens : List PartitionToken} (handled : List FunctionLoops) :
    (handled.map FunctionLoops.directiveOnCall).foldlM Context.update ⟨tokens⟩ =
      .ok ⟨tokens ++ handled.map fun F => .funCallee F.function⟩ := by
  induction handled generalizing tokens with
  | nil => simp [pure, Except.pure]
  | cons F handled ih =>
    rw [List.map_cons, List.foldlM_cons, FunctionLoops.directiveOnCall, update_create rfl, ok_bind,
      ih]
    simp

/-- The context that a function starts with. -/
theorem expected_of_call (hprogram : ∀ F ∈ program, F.Natural) {F : FunctionLoops}
    (hF : F ∈ program) {reducedCtx calleeCtx context : Context} {handledBefore : List FunctionLoops}
    (hhandled : (handledBefore.map FunctionLoops.directiveOnCall).foldlM Context.update reducedCtx
      = .ok calleeCtx)
    (hcallee : calleeCtx.update F.directiveOnCall = .ok context) :
    Frame.Expected opts program [] ⟨F, reducedCtx, handledBefore, [], F.entry, context⟩ := by
  refine ⟨hF, ?_⟩
  have hreduced : reducedCtx = ⟨reducedCtx.getTokenList⟩ := rfl
  rw [hreduced, foldlM_directiveOnCall] at hhandled
  cases hhandled
  rw [FunctionLoops.directiveOnCall, update_create rfl] at hcallee
  cases hcallee
  have hentry : loopTokensAt opts F [] F.entry = [] := by
    rw [loopTokensAt, FunctionLoops.loopsAround_entry (hprogram F hF)]
    rfl
  simp [Frame.expectedTokens, Frame.localTokens, hentry]

/-- An edge can be taken, and the context stays the one that is expected. -/
theorem expected_of_edge (hprogram : ∀ F ∈ program, F.Natural) (h : fr.Expected opts program [])
    {e : MBBedge} (he : e ∈ fr.function.edges) (hsource : e.1 = fr.block) :
    ∃ context, fr.function.takeEdge opts e fr.context = .ok context ∧
      Frame.Expected opts program []
        { fr with path := e :: fr.path, block := e.2, context } := by
  refine ⟨⟨Frame.expectedTokens opts { fr with path := e :: fr.path, block := e.2 }⟩, ?_, h.mem, ?_⟩
  · rw [h.context_eq, List.append_nil]
    unfold Frame.expectedTokens Frame.localTokens
    split_ifs with hpeel
    · rw [← hsource]
      exact takeEdge_eq (hprogram _ h.mem) hpeel he
    · exact takeEdge_unpeeled (Nat.eq_zero_of_not_pos hpeel)
  · rw [List.append_nil]
    rfl

theorem expected_of_before (h : fr.Expected opts program []) {callInstr : CallSite}
    {before : Context} (hbefore : fr.context.update (directiveBeforeInstr callInstr) = .ok before) :
    Frame.Expected opts program [.callSite callInstr] { fr with context := before } := by
  rw [h.context_eq, List.append_nil, directiveBeforeInstr, update_create rfl] at hbefore
  cases hbefore
  exact ⟨h.mem, rfl⟩

theorem expected_of_after {callInstr : CallSite}
    (h : fr.Expected opts program [.callSite callInstr])
    {context : Context} (hafter : fr.context.update (directiveAfterInstr callInstr) = .ok context) :
    Frame.Expected opts program [] { fr with context } := by
  have hmerge : Context.update ⟨fr.expectedTokens opts ++ [.callSite callInstr]⟩
      (directiveAfterInstr callInstr) = .ok ⟨fr.expectedTokens opts⟩ :=
    merge_append (List.mem_singleton_self _)
  rw [h.context_eq, hmerge] at hafter
  cases hafter
  exact ⟨h.mem, by rw [List.append_nil]; rfl⟩

theorem expected_of_run (hprogram : ∀ F ∈ program, F.Natural)
    (h : ContextRun opts program fr waiting) :
    fr.Expected opts program [] ∧
      ∀ call ∈ waiting, call.2.Expected opts program [.callSite call.1] := by
  induction h with
  | start hF hcallee =>
    have hnone : (([] : List FunctionLoops).map FunctionLoops.directiveOnCall).foldlM
        Context.update ⟨[]⟩ = .ok ⟨[]⟩ := rfl
    refine ⟨expected_of_call hprogram hF hnone hcallee, ?_⟩
    intro call hcall
    cases hcall
  | edge _ he hsource hedge ih =>
    obtain ⟨context, hcontext, hexpected⟩ := expected_of_edge hprogram ih.1 he hsource
    cases hcontext.symm.trans hedge
    exact ⟨hexpected, ih.2⟩
  | call _ callInstr hF handledBefore hbefore _ hhandled hcallee ih =>
    refine ⟨expected_of_call hprogram hF hhandled hcallee, ?_⟩
    exact List.forall_mem_cons.mpr ⟨expected_of_before ih.1 hbefore, ih.2⟩
  | callExternal _ callInstr hbefore hafter ih =>
    exact ⟨expected_of_after (expected_of_before ih.1 hbefore) hafter, ih.2⟩
  | «return» _ hafter ih =>
    obtain ⟨hcaller, hwaiting⟩ := List.forall_mem_cons.mp ih.2
    exact ⟨expected_of_after hcaller hafter, hwaiting⟩

/-- Along every interprocedural path through natural loops the context of a block consists
of the reduced context of the call, the token of the function and, if loops are peeled, one
token for each loop around the block. All edges can be taken. Where no loop token is on the
context, a return gives the reduced context back. -/
theorem contexts_of_run (hprogram : ∀ F ∈ program, F.Natural)
    (h : ContextRun opts program fr waiting) (hfirst : fr.handledBefore = []) :
    fr.context.getTokenList = fr.reducedCtx.getTokenList ++
        .funCallee fr.function.function :: fr.localTokens opts ∧
      (∀ e ∈ fr.function.edges, e.1 = fr.block →
        ∃ context, fr.function.takeEdge opts e fr.context = .ok context) ∧
      (∃ context, fr.context.update fr.function.directiveOnReturn = .ok context) ∧
      (fr.localTokens opts = [] →
        fr.context.update fr.function.directiveOnReturn = .ok fr.reducedCtx) := by
  have hexpected := (expected_of_run hprogram h).1
  have htokens : fr.context.getTokenList = fr.reducedCtx.getTokenList ++
      .funCallee fr.function.function :: fr.localTokens opts := by
    rw [hexpected.context_eq]
    simp [Frame.expectedTokens, hfirst]
  refine ⟨htokens, ?_, ?_, ?_⟩
  · intro e he hsource
    obtain ⟨context, hcontext, _⟩ := expected_of_edge hprogram hexpected he hsource
    exact ⟨context, hcontext⟩
  · have hnonempty : fr.context.getTokenList ≠ [] := by simp [htokens]
    obtain ⟨label, hlabel⟩ := Option.ne_none_iff_exists'.mp
      (mt List.getLast?_eq_none_iff.mp hnonempty)
    change ∃ context, fr.context.merge [.funCallee fr.function.function] = .ok context
    unfold Context.merge
    rw [hlabel]
    exact ⟨_, rfl⟩
  · intro hlocal
    have hcontext : fr.context =
        ⟨fr.reducedCtx.getTokenList ++ [.funCallee fr.function.function]⟩ := by
      rw [hlocal] at htokens
      rw [← htokens]
    rw [hcontext]
    exact merge_append (List.mem_singleton_self _)

end Runs

section Example

/-- A function with a loop of one block. -/
def selfLoop : FunctionLoops := ⟨0, 0, [(0, 1), (1, 1), (1, 2)], [.node ⟨1, [1]⟩ []]⟩

theorem natural_selfLoop : selfLoop.Natural where
  nested := List.pairwise_singleton _ _
  header_mem := by decide
  entered_at_header := by decide
  has_pred := by
    intro loop hloop bb hbb
    have hsame : loop = ⟨1, [1]⟩ := List.mem_singleton.mp hloop
    subst hsame
    have hblock : bb = 1 := List.mem_singleton.mp (of_decide_eq_true hbb)
    subst hblock
    exact ⟨(0, 1), by decide, rfl⟩
  entry_pred_empty := by decide

/-- The loop has been entered once, with a number of iterations that are peeled. -/
def inLoop (loopPeel : ℕ) : Frame :=
  ⟨selfLoop, ⟨[]⟩, [], [(0, 1)], 1,
    ⟨.funCallee 0 :: if 0 < loopPeel then [.loopPeel ⟨1, [1]⟩ [(1, 1)] 0] else []⟩⟩

def peeling (loopPeel : ℕ) : ContextOptions := ⟨loopPeel, 0, 0, -1⟩

theorem contextRun_inLoop {loopPeel : ℕ} (h : selfLoop.takeEdge (peeling loopPeel) (0, 1)
    ⟨[.funCallee 0]⟩ = .ok (inLoop loopPeel).context) :
    ContextRun (peeling loopPeel) [selfLoop] (inLoop loopPeel) [] := by
  have hstart : ContextRun (peeling loopPeel) [selfLoop]
      ⟨selfLoop, ⟨[]⟩, [], [], 0, ⟨[.funCallee 0]⟩⟩ [] := .start (List.mem_singleton_self _) rfl
  have he : (0, 1) ∈ selfLoop.edges := by decide
  exact .edge hstart he rfl h

theorem contexts_of_run_inLoop : (inLoop 1).context.getTokenList =
    (inLoop 1).reducedCtx.getTokenList ++ .funCallee 0 :: (inLoop 1).localTokens (peeling 1) := by
  have hprogram : ∀ F ∈ [selfLoop], F.Natural := by
    intro F hF
    rw [List.mem_singleton.mp hF]
    exact natural_selfLoop
  exact (contexts_of_run hprogram (contextRun_inLoop (by decide)) rfl).1

/-- If no iteration is peeled, there is no token for the loop around the block. -/
theorem loop_without_token : ¬ ∀ (opts : ContextOptions) (program : List FunctionLoops)
    (fr : Frame) (waiting : List (CallSite × Frame)), (∀ F ∈ program, F.Natural) →
    ContextRun opts program fr waiting → fr.handledBefore = [] →
      fr.context.getTokenList = fr.reducedCtx.getTokenList ++
        .funCallee fr.function.function :: loopTokensAt opts fr.function fr.path fr.block ∧
      (∀ e ∈ fr.function.edges, e.1 = fr.block →
        ∃ context, fr.function.takeEdge opts e fr.context = .ok context) ∧
      fr.context.update fr.function.directiveOnReturn = .ok fr.reducedCtx := by
  intro h
  have hprogram : ∀ F ∈ [selfLoop], F.Natural := by
    intro F hF
    rw [List.mem_singleton.mp hF]
    exact natural_selfLoop
  have htokens := (h (peeling 0) [selfLoop] (inLoop 0) [] hprogram (contextRun_inLoop (by decide))
    rfl).1
  have hne : (inLoop 0).context.getTokenList ≠ (inLoop 0).reducedCtx.getTokenList ++
      .funCallee 0 :: loopTokensAt (peeling 0) selfLoop [(0, 1)] 1 := by decide
  exact hne htokens

end Example

end Llvmta
