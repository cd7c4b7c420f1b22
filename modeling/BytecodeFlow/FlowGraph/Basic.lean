import BytecodeFlow.Instruction
import BytecodeFlow.Text.Layout

/-!
# Flow graphs

Program points of methods, connected by instructions, calls and exception handlers. Nodes and edges
are numbered in the order in which they are added, and nothing that has been added changes later.
Node 0 stands for code that is not available.

A call edge leads to the entry of its target if that node exists when the edge is added, and to
node 0 otherwise; the target is not looked up again.
-/
namespace BytecodeFlow

abbrev NodeId := Nat

abbrev EdgeId := Nat

def entryOffset : Int := 0

/-- The offset to which every return of a method leads. -/
def returnOffset : Int := -1

/-- The offset to which uncaught exceptions of a method lead. -/
def exceptionOffset : Int := -2

inductive Node where
  /-- Code that is not available. -/
  | unknown
  | point (method : Method) (offset : Int)
  deriving DecidableEq, Repr

namespace Node

def method? : Node → Option Method
  | unknown => none
  | point method _ => some method

def offset? : Node → Option Int
  | unknown => none
  | point _ offset => some offset

def isEntry (n : Node) : Bool := n.offset? == some entryOffset
def isReturnExit (n : Node) : Bool := n.offset? == some returnOffset
def isExceptionExit (n : Node) : Bool := n.offset? == some exceptionOffset
def isUnknown (n : Node) : Bool := n == unknown

def text : Node → String
  | unknown => "unknown"
  | point method offset => s!"{method.qualifiedName}@{offset}"

end Node

/-- A call site with a method that it may invoke. -/
structure Call where
  caller : Method
  offset : Int
  target : Method
  dispatch : Dispatch
  deriving DecidableEq, Repr

def Call.text (c : Call) : String :=
  s!"{c.caller.qualifiedName}@{c.offset} -> {c.dispatch.text} {c.target.qualifiedName}"

inductive Label where
  /-- The effect of one instruction. -/
  | instruction (i : Instruction)
  /-- From a call site to the entry of a possible target. -/
  | call (c : Call)
  /-- Control reaches an exception handler. -/
  | handler
  deriving DecidableEq, Repr

namespace Label

def isIntraprocedural : Label → Bool
  | call _ => false
  | _ => true

def instruction? : Label → Option Instruction
  | instruction i => some i
  | _ => none

def call? : Label → Option Call
  | call c => some c
  | _ => none

def isInvoke : Label → Bool
  | instruction i => i.isInvoke
  | _ => false

def text : Label → String
  | instruction i => i.text
  | call c => s!"call {c.text}"
  | handler => "catch"

end Label

structure Edge where
  id : EdgeId
  source : NodeId
  target : NodeId
  label : Label
  deriving DecidableEq, Repr

structure FlowGraph where
  nodes : List Node
  edges : List Edge
  deriving DecidableEq, Repr

namespace FlowGraph

/-- The node for code that is not available. -/
def unknownNode : NodeId := 0

def empty : FlowGraph :=
  ⟨[.unknown], []⟩

/-! ### Looking up nodes -/

/-- The node at this index; indices beyond the graph stand for code that is not available. -/
def node (g : FlowGraph) (n : NodeId) : Node :=
  g.nodes.getD n .unknown

def findNode (g : FlowGraph) (m : Method) (offset : Int) : Option NodeId :=
  g.nodes.findIdx? (· == .point m offset)

def entry? (g : FlowGraph) (m : Method) : Option NodeId := g.findNode m entryOffset
def returnExit? (g : FlowGraph) (m : Method) : Option NodeId := g.findNode m returnOffset
def exceptionExit? (g : FlowGraph) (m : Method) : Option NodeId := g.findNode m exceptionOffset

def isEntryNode (g : FlowGraph) (n : NodeId) : Bool := (g.node n).isEntry

def entered (g : FlowGraph) : List Method :=
  (g.nodes.filter Node.isEntry).filterMap Node.method?

/-! ### Construction -/

/-- The node of the method at this offset, which is added if there is none yet. -/
def addNode (g : FlowGraph) (m : Method) (offset : Int) : FlowGraph × NodeId :=
  match g.findNode m offset with
  | some n => (g, n)
  | none => ({ g with nodes := g.nodes ++ [.point m offset] }, g.nodes.length)

/-- Adds the two exits and the entry of a method and returns the entry. -/
def addMethod (g : FlowGraph) (m : Method) : FlowGraph × NodeId :=
  let g := (g.addNode m returnOffset).1
  let g := (g.addNode m exceptionOffset).1
  g.addNode m entryOffset

def addEdge (g : FlowGraph) (source target : NodeId) (label : Label) : FlowGraph × EdgeId :=
  ({ g with edges := g.edges ++ [⟨g.edges.length, source, target, label⟩] }, g.edges.length)

def addInstruction (g : FlowGraph) (source target : NodeId) (i : Instruction) : FlowGraph × EdgeId :=
  g.addEdge source target (.instruction i)

def addHandler (g : FlowGraph) (source target : NodeId) : FlowGraph × EdgeId :=
  g.addEdge source target .handler

def callTarget (g : FlowGraph) (m : Method) : NodeId :=
  (g.entry? m).getD unknownNode

def addCall (g : FlowGraph) (source : NodeId) (c : Call) : FlowGraph × EdgeId :=
  g.addEdge source (g.callTarget c.target) (.call c)

/-! ### Edges of a node, in the order in which they were added -/

def entering (g : FlowGraph) (n : NodeId) : List Edge :=
  g.edges.filter (·.target == n)

def leaving (g : FlowGraph) (n : NodeId) : List Edge :=
  g.edges.filter (·.source == n)

def enteringIntraprocedural (g : FlowGraph) (n : NodeId) : List Edge :=
  (g.entering n).filter (·.label.isIntraprocedural)

def leavingIntraprocedural (g : FlowGraph) (n : NodeId) : List Edge :=
  (g.leaving n).filter (·.label.isIntraprocedural)

def callsOf (edges : List Edge) : List (Edge × Call) :=
  edges.filterMap fun e => e.label.call?.map fun c => (e, c)

def enteringCalls (g : FlowGraph) (n : NodeId) : List (Edge × Call) :=
  callsOf (g.entering n)

/-- The calls that leave the node to methods with code. -/
def knownCalls (g : FlowGraph) (n : NodeId) : List (Edge × Call) :=
  (callsOf (g.leaving n)).filter (·.1.target != unknownNode)

def callsUnknown (g : FlowGraph) (n : NodeId) : Bool :=
  (callsOf (g.leaving n)).any (·.1.target == unknownNode)

def describe : String := Text.quoted "Cfa"

end FlowGraph

end BytecodeFlow
