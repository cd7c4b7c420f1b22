import BytecodeFlow.Machine.Fields
import BytecodeFlow.Machine.Frame
import BytecodeFlow.Machine.Location

/-!
# Machine states

What is known at a node of a flow graph: a frame and the values of static fields. States at one node
form a join semilattice whenever the values do; states at different nodes are unrelated.
-/
namespace BytecodeFlow

structure MachineState (V : Type) where
  node : NodeId
  frame : Frame V
  statics : Fields V
  deriving DecidableEq, Repr

namespace MachineState

variable {V : Type}

instance : Located (MachineState V) where
  location s := s.node
  relocate n s := { s with node := n }

instance : Observable (MachineState V) V where
  valueAt? s
    | .var index => s.frame.var? index
    | .stack index => s.frame.peek? index
    | .static field => s.statics.get? field
    | .heap _ => none

/-- The join is at the node of the first state. -/
def join [JoinDomain V] (s t : MachineState V) : MachineState V :=
  ⟨s.node, s.frame.join t.frame, s.statics.join t.statics⟩

instance [JoinDomain V] [DecidableEq V] : JoinDomain (MachineState V) where
  le s t := s.node == t.node && s.join t == t
  join := join
  joinable s t := s.node == t.node

def text? (write : V → String) (s : MachineState V) : Option String :=
  if s.statics.isEmpty then
    some (Text.record "JvmAbstractState"
      [("location", toString s.node), ("frame", s.frame.text write),
        ("static_fields", Text.record "RedBlackTreeMap" [("root", Text.optional none), ("size", "0")])])
  else none

end MachineState

end BytecodeFlow
