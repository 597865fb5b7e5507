import Llvmta.PartitionUtil.Directive
import Llvmta.PartitionUtil.PartitionToken

/-!
# The partitioning domain

An analysis becomes context-sensitive by a labelled tree whose leaves hold its information.
The labels on the path to a leaf are the tokens of a context. A context that is a proper
prefix of another one ends under the label NONE.
-/

namespace Llvmta

open Checked LabeledTree

inductive AnaDomInit where
  | top
  | bottom
  | start
  deriving DecidableEq, Repr

/-- What the partitioning domain calls of an analysis. -/
class AnalysisDom (A : Type) where
  ofInit : AnaDomInit → A
  join : A → A → A
  lessequal : A → A → Bool

open AnalysisDom

abbrev ContextTree (A : Type) := LabeledTree PartitionToken A

/-- No tree represents bottom. -/
structure PartitioningDomain (A : Type) where
  partitionedAnalysisInfo : Option (ContextTree A)

namespace Context

/-- The constructor gets rid of any NONE-tokens. -/
def ofPath (path : List PartitionToken) : Context :=
  Context.clearTokensOlderThan ⟨path⟩ (fun token => token == .none) 0

/-- Contexts are compared token by token. -/
def equals (ctx ctx' : Context) : Bool :=
  ctx.getTokenList.length == ctx'.getTokenList.length &&
    (ctx.getTokenList.zip ctx'.getTokenList).all fun tokens => tokens.1.equals tokens.2

end Context

variable {A : Type} [AnalysisDom A]

namespace ContextTree

/-- Whether the join has changed a value. -/
def changes (old ana : A) : Bool :=
  !(lessequal old (join old ana) && lessequal (join old ana) old)

/-- The loop of `addContext`: the labels that are left and the current position. -/
def add : List PartitionToken → ContextTree A → A → Except Fault (ContextTree A × Bool)
  | [], .leaf value, ana => .ok (.leaf (join value ana), changes value ana)
  | label :: labels, .leaf value, ana => do
    let lab2tree ← addChild [] PartitionToken.none (.leaf value)
    let lab2tree ← addChild lab2tree label (makeLabeledTree labels ana)
    .ok (.node lab2tree, true)
  | [], .node lab2tree, ana =>
    match getChildWithEqualLabel lab2tree .none with
    | none => do
      let lab2tree ← addChild lab2tree .none (.leaf ana)
      .ok (.node lab2tree, true)
    | some (.leaf value) =>
      .ok (.node (setChildWithEqualLabel .none (.leaf (join value ana)) lab2tree),
        changes value ana)
    | some (.node _) => .error (.assertion "Subtree with label NONE should be leaf!")
  | topmost :: labels, .node lab2tree, ana =>
    match getChildWithEqualLabel lab2tree topmost with
    | none => do
      let lab2tree ← addChild lab2tree topmost (makeLabeledTree labels ana)
      .ok (.node lab2tree, true)
    | some subtree => do
      let added ← add labels subtree ana
      .ok (.node (setChildWithEqualLabel topmost added.1 lab2tree), added.2)

/-- The walk down of both lookups, which differ in a missing child and in what happens at a
leaf when tokens are left. -/
def walkDown (missing : Except Fault A) (left : PartitionToken → Except Fault A) :
    List PartitionToken → ContextTree A → Except Fault A
  | [], .leaf value => .ok value
  | token :: _, .leaf _ => left token
  | [], .node lab2tree =>
    match getChildWithEqualLabel lab2tree .none with
    | none => .error (.assertion "Context empty but internal node without none child")
    | some (.leaf value) => .ok value
    | some (.node _) => .error (.assertion "None child of tree is not a leaf")
  | topmost :: tokens, .node lab2tree =>
    match getChildWithEqualLabel lab2tree topmost with
    | none => missing
    | some subtree => walkDown missing left tokens subtree

/-- The value of a child after an edge is taken: each iteration of a loop with this back edge
gets the value of the iteration before it, the last one keeps its own as well. -/
def edgeTransfer (edge : MBBedge) (lab2tree : Children PartitionToken A) :
    PartitionToken → ContextTree A → Except Fault (ContextTree A)
  | .loopPeel loop backedges taken, child =>
    if edge ∈ backedges then
      match child with
      | .node _ => .error (.assertion "Only top level loop partitionings allowed here.")
      | .leaf _ =>
        if taken = 0 then .ok (.leaf (ofInit .bottom))
        else match getChildWithEqualLabel lab2tree (.loopPeel loop backedges (taken - 1)) with
          | some (.leaf dep) => .ok (.leaf dep)
          | _ => .error (.assertion "Dependent tree leaf does not exist or is no leaf.")
    else .ok child
  | .loopIter loop backedges taken, child =>
    if edge ∈ backedges then
      match child with
      | .node _ => .error (.assertion "Only top level loop partitionings allowed here.")
      | .leaf value =>
        if taken = 0 then .ok (.leaf value)
        else match getChildWithEqualLabel lab2tree (.loopPeel loop backedges (taken - 1)) with
          | some (.leaf dep) => .ok (.leaf (join value dep))
          | _ => .error (.assertion "Dependent tree leaf does not exist or is no leaf.")
    else .ok child
  | _, child => .ok child

mutual

/-- The walk of `transferEdge`: the children of a node first, then the node itself. -/
def shift (edge : MBBedge) : ContextTree A → Except Fault (ContextTree A)
  | .leaf value => .ok (.leaf value)
  | .node lab2tree => do
    let lab2tree ← shiftChildren edge lab2tree
    let shifted ← lab2tree.mapM fun child =>
      (edgeTransfer edge lab2tree child.1 child.2).map fun tr => (child.1, tr)
    .ok (.node shifted)

def shiftChildren (edge : MBBedge) :
    Children PartitionToken A → Except Fault (Children PartitionToken A)
  | [] => .ok []
  | (lab, tr) :: children => do
    let tr ← shift edge tr
    let children ← shiftChildren edge children
    .ok ((lab, tr) :: children)

end

end ContextTree

namespace PartitioningDomain

def ofInit : AnaDomInit → PartitioningDomain A
  | .bottom => ⟨none⟩
  | .top => ⟨some (.leaf (AnalysisDom.ofInit .top))⟩
  | .start => ⟨some (.leaf (AnalysisDom.ofInit .start))⟩

def isBottom (pd : PartitioningDomain A) : Bool := pd.partitionedAnalysisInfo.isNone

/-- Returns true if something has changed. -/
def addContext (pd : PartitioningDomain A) (ctx : Context) (ana : A) :
    Except Fault (PartitioningDomain A × Bool) :=
  match pd.partitionedAnalysisInfo with
  | none => .ok (⟨some (makeLabeledTree ctx.getTokenList ana)⟩, true)
  | some tree => (ContextTree.add ctx.getTokenList tree ana).map fun added =>
      (⟨some added.1⟩, added.2)

def findAnalysisInfo (pd : PartitioningDomain A) (ctx : Context) : Except Fault A :=
  match pd.partitionedAnalysisInfo with
  | none => .ok (AnalysisDom.ofInit .bottom)
  | some tree =>
    ContextTree.walkDown (.error (.assertion "There is no information for the given context!"))
      (fun _ => .error (.assertion "Could not find information, leaf but context left"))
      ctx.getTokenList tree

/-- A context that is not built up yet is not reachable yet. -/
def findAnalysisInfoEarly (pd : PartitioningDomain A) (ctx : Context) : Except Fault A :=
  match pd.partitionedAnalysisInfo with
  | none => .ok (AnalysisDom.ofInit .bottom)
  | some tree =>
    ContextTree.walkDown (.ok (AnalysisDom.ofInit .bottom))
      (fun token => do
        assertThat (token.getType != .none) "Expected non-NONE token here"
        .ok (AnalysisDom.ofInit .bottom))
      ctx.getTokenList tree

/-- What is found in a walk is inserted under its context. -/
def insertInfo (ctx2anadom : List (Context × A)) (leaf : List PartitionToken × A) :
    Except Fault (List (Context × A)) := do
  let ctx := Context.ofPath leaf.1
  assertThat (!ctx2anadom.any fun e => e.1.equals ctx)
    "Saw the same context twice in the tree when gathering information"
  .ok (ctx2anadom ++ [(ctx, leaf.2)])

def getAnalysisInfoPerContext (pd : PartitioningDomain A) : Except Fault (List (Context × A)) :=
  match pd.partitionedAnalysisInfo with
  | none => .error (.assertion "No context->anainfo for unreachable parts")
  | some tree => (leaves [] tree).foldlM insertInfo []

/-- Adds the information of a leaf of another tree. -/
def handleJoin (pd : PartitioningDomain A) (leaf : List PartitionToken × A) :
    Except Fault (PartitioningDomain A) :=
  (pd.addContext (Context.ofPath leaf.1) leaf.2).map Prod.fst

def join (pd other : PartitioningDomain A) : Except Fault (PartitioningDomain A) :=
  match other.partitionedAnalysisInfo, pd.partitionedAnalysisInfo with
  | none, _ => .ok pd
  | some _, none => .ok other
  | some otherTree, some _ => (leaves [] otherTree).foldlM handleJoin pd

/-- The information of a context goes to the first iteration of a new loop, or to the new
call. -/
def createdInfo (ana : A) : PartitionToken → Except Fault A
  | .loopPeel _ _ backedgeTakenCount =>
    .ok (if backedgeTakenCount = 0 then ana else AnalysisDom.ofInit .bottom)
  | .loopIter _ _ backedgeLeastTakenCount =>
    .ok (if backedgeLeastTakenCount = 0 then ana else AnalysisDom.ofInit .bottom)
  | .callSite _ => .ok ana
  | .funCallee _ => .ok ana
  | .ifOutcome _ _ => .error (.assertion "Unsupported directive found (IF or NONE)")
  | .none => .error (.assertion "Unsupported directive found (IF or NONE)")

def handleCreate (leaf : List PartitionToken × A) (pd : PartitioningDomain A)
    (token : PartitionToken) : Except Fault (PartitioningDomain A) := do
  let ana ← createdInfo leaf.2 token
  (pd.addContext (Context.ofPath (leaf.1 ++ [token])) ana).map Prod.fst

/-- Puts the information of a leaf of the old tree where the directive wants it. -/
def handleDirec (direc : Directive) (pd : PartitioningDomain A)
    (leaf : List PartitionToken × A) : Except Fault (PartitioningDomain A) :=
  match direc.getType with
  | .create => direc.getPartitionTokens.foldlM (handleCreate leaf) pd
  | .merge => do
    let currCtx ← (Context.ofPath leaf.1).update direc
    (pd.addContext currCtx leaf.2).map Prod.fst

/-- The tree is emptied and built up again with updated contexts. -/
def updateContexts (pd : PartitioningDomain A) (direc : Directive) :
    Except Fault (PartitioningDomain A) :=
  match pd.partitionedAnalysisInfo with
  | none => .ok pd
  | some oldTree => (leaves [] oldTree).foldlM (handleDirec direc) ⟨none⟩

/-- Changes the information at each leaf: the walks of `transfer` and `guard`, and that of
`enterBasicBlock`, which does not read the context. -/
def transfer (f : Context → A → A) (pd : PartitioningDomain A) : PartitioningDomain A :=
  ⟨pd.partitionedAnalysisInfo.map (mapLeaves (fun path => f (Context.ofPath path)) [])⟩

def transferEdge (pd : PartitioningDomain A) (edge : MBBedge) :
    Except Fault (PartitioningDomain A) :=
  match pd.partitionedAnalysisInfo with
  | none => .ok pd
  | some tree => (ContextTree.shift edge tree).map fun tree => ⟨some tree⟩

def equals (pd other : PartitioningDomain A) : Bool :=
  match pd.partitionedAnalysisInfo, other.partitionedAnalysisInfo with
  | none, none => true
  | some tree, some tree' => LabeledTree.equals lessequal tree tree'
  | _, _ => false

end PartitioningDomain

end Llvmta
