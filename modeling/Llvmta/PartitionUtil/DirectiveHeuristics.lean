import Llvmta.PartitionUtil.Directive

/-!
# The directives of a program

A token is created on the edges into a loop and merged on the edges out of it. The loops
are annotated from the outermost to the innermost one: on an edge that leaves several
loops the innermost one is merged first. Tokens for calls are created and merged around
call instructions and at the start and the end of functions.
-/

namespace Llvmta

open Checked

/-- A loop with its sub loops. -/
inductive LoopTree where
  | node (loop : MachineLoop) (getSubLoops : List LoopTree)

/-- What the directives of a function depend on. -/
structure FunctionLoops where
  function : MachineFunctionId
  /-- the block that the function starts with -/
  entry : MachineBasicBlock
  /-- the edges between the basic blocks -/
  edges : List MBBedge
  /-- the outermost loops -/
  loops : List LoopTree

section Edges

variable (edges : List MBBedge) (loop : MachineLoop)

def getIncomingEdgesOfLoop : List MBBedge :=
  (edges.filter fun e => e.2 == loop.getHeader && !loop.contains e.1).dedup

def getExitingEdgesOfLoop : List MBBedge :=
  (edges.filter fun e => loop.contains e.1 && !loop.contains e.2).dedup

def getBackEdgesOfLoop : List MBBedge :=
  (edges.filter fun e => e.2 == loop.getHeader && loop.contains e.1).dedup

end Edges

/-- The directives on the edges of a function, in the order in which they are applied when
the edge is entered and when it is left. -/
structure EdgeDirectives where
  directiveEnterBBEdge : MBBedge → List Directive
  directiveLeaveBBEdge : MBBedge → List Directive

namespace EdgeDirectives

def empty : EdgeDirectives := ⟨fun _ => [], fun _ => []⟩

/-- Appends a directive for the edges that are left. -/
def addLeave (direcs : EdgeDirectives) (edges : List MBBedge) (direc : Directive) :
    EdgeDirectives :=
  { direcs with directiveLeaveBBEdge := fun e =>
      if e ∈ edges then direcs.directiveLeaveBBEdge e ++ [direc]
      else direcs.directiveLeaveBBEdge e }

/-- Puts a directive in front for the edges that are entered. -/
def addEnter (direcs : EdgeDirectives) (edges : List MBBedge) (direc : Directive) :
    EdgeDirectives :=
  { direcs with directiveEnterBBEdge := fun e =>
      if e ∈ edges then direc :: direcs.directiveEnterBBEdge e
      else direcs.directiveEnterBBEdge e }

end EdgeDirectives

section Annotation

variable (opts : ContextOptions) (edges : List MBBedge)

/-- The tokens that a loop is annotated with. -/
def tokensOfLoop (loop : MachineLoop) : List PartitionToken :=
  loopTokens opts.loopPeel loop (getBackEdgesOfLoop edges loop)

/-- The annotation of a loop without its sub loops. -/
def annotateLoop (direcs : EdgeDirectives) (loop : MachineLoop) : EdgeDirectives :=
  (direcs.addLeave (getIncomingEdgesOfLoop edges loop)
    ⟨.create, tokensOfLoop opts edges loop⟩).addEnter (getExitingEdgesOfLoop edges loop)
    ⟨.merge, tokensOfLoop opts edges loop⟩

mutual

def annotateLoopDirective (direcs : EdgeDirectives) : LoopTree → EdgeDirectives
  | .node loop getSubLoops =>
    annotateSubLoops (annotateLoop opts edges direcs loop) getSubLoops

def annotateSubLoops (direcs : EdgeDirectives) : List LoopTree → EdgeDirectives
  | [] => direcs
  | tree :: trees => annotateSubLoops (annotateLoopDirective direcs tree) trees

end

end Annotation

namespace FunctionLoops

variable (opts : ContextOptions) (F : FunctionLoops)

/-- The directives on edges, if loops are peeled. -/
def edgeDirectives : EdgeDirectives :=
  if 0 < opts.loopPeel then annotateSubLoops opts F.edges .empty F.loops else .empty

def directiveOnCall : Directive := ⟨.create, [.funCallee F.function]⟩

def directiveOnReturn : Directive := ⟨.merge, [.funCallee F.function]⟩

/-- What the analysis driver does with the context on an edge. -/
def takeEdge (edge : MBBedge) (context : Context) : Except Fault Context := do
  let context ← ((F.edgeDirectives opts).directiveEnterBBEdge edge).foldlM Context.update context
  let context ← context.transfer opts.loopPeel edge
  ((F.edgeDirectives opts).directiveLeaveBBEdge edge).foldlM Context.update context

end FunctionLoops

def directiveBeforeInstr (callInstr : CallSite) : Directive := ⟨.create, [.callSite callInstr]⟩

def directiveAfterInstr (callInstr : CallSite) : Directive := ⟨.merge, [.callSite callInstr]⟩

end Llvmta
