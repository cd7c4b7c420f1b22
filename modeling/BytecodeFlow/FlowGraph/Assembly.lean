import BytecodeFlow.Notice

/-!
# Assembling a flow graph

Directives name the nodes of a method by their offsets; an absent offset is the node for code that
is not available. Nodes are added as they are mentioned, the source of an edge before its target.
-/
namespace BytecodeFlow

inductive Directive where
  | method (m : Method)
  | node (m : Method) (offset : Int)
  | instruction (m : Method) (source target : Option Int) (i : Instruction)
  | handler (m : Method) (source target : Option Int)
  | call (m : Method) (source : Option Int) (dispatch : Dispatch) (target : Method)
  /-- An invocation with its call edge. -/
  | invoke (m : Method) (source target : Option Int) (dispatch : Dispatch) (callee : Method)
  deriving DecidableEq, Repr

namespace FlowGraph

/-- The node at an offset, or the one for code that is not available. -/
def mention (g : FlowGraph) (m : Method) : Option Int → FlowGraph × NodeId
  | none => (g, unknownNode)
  | some offset => g.addNode m offset

def callNotices (g : FlowGraph) (target : Method) : List Notice :=
  if g.callTarget target == unknownNode then [.unresolvedCall target] else []

/-- The graph after a directive, the number of the node or edge that it is about, and notices. -/
def assembleStep (g : FlowGraph) : Directive → FlowGraph × Nat × List Notice
  | .method m =>
    let (g, n) := g.addMethod m
    (g, n, [])
  | .node m offset =>
    let (g, n) := g.addNode m offset
    (g, n, [])
  | .instruction m source target i =>
    let (g, s) := g.mention m source
    let (g, t) := g.mention m target
    let (g, e) := g.addInstruction s t i
    (g, e, [])
  | .handler m source target =>
    let (g, s) := g.mention m source
    let (g, t) := g.mention m target
    let (g, e) := g.addHandler s t
    (g, e, [])
  | .call m source dispatch target =>
    let (g, s) := g.mention m source
    let notices := g.callNotices target
    let (g, e) := g.addCall s ⟨m, source.getD entryOffset, target, dispatch⟩
    (g, e, notices)
  | .invoke m source target dispatch callee =>
    let (g, s) := g.mention m source
    let (g, t) := g.mention m target
    let (g, _) := g.addInstruction s t (.invoke dispatch callee)
    let notices := g.callNotices callee
    let (g, e) := g.addCall s ⟨m, source.getD entryOffset, callee, dispatch⟩
    (g, e, notices)

/-- A graph under construction, with the numbers that its directives were answered with. -/
structure Assembly where
  graph : FlowGraph
  numbers : List Nat
  notices : List Notice

def Assembly.empty : Assembly := ⟨FlowGraph.empty, [], []⟩

def Assembly.add (a : Assembly) (d : Directive) : Assembly :=
  let (g, n, notices) := a.graph.assembleStep d
  ⟨g, a.numbers ++ [n], a.notices ++ notices⟩

def assemble (directives : List Directive) : Assembly :=
  directives.foldl Assembly.add Assembly.empty

end FlowGraph

end BytecodeFlow
