import BytecodeFlow.Machine.State
import BytecodeFlow.Notice

/-!
# Passing arguments and results

A caller's state is reduced to what the callee can observe: the arguments become its leading local
variables, its stack is empty and static fields are passed on. The state after the call is expanded
from the caller's state and the callee's exit: the arguments are popped, the returned value is pushed
and static fields are those of the exit.
-/
namespace BytecodeFlow

namespace MachineState

variable {V : Type} [Inhabited V]

/-- The local variables of a callee that is called with this stack. -/
def arguments (target : Method) (stack : List V) : List V :=
  (List.range target.parameterSlots).map fun index =>
    ((target.argumentSlot? index).bind (stack[·]?)).getD default

def reduce (s : MachineState V) (entry : NodeId) (call : Call) : Except Fault (MachineState V) :=
  let needed := call.target.parameterSlots
  let size := s.frame.stack.length
  if size < needed then
    .error (.contract (.state (.missingArguments call.target.qualifiedName needed size)))
  else
    .ok ⟨entry, ⟨arguments call.target s.frame.stack, []⟩, s.statics⟩

def expand (s exit : MachineState V) (call : Call) : Except Fault (MachineState V) :=
  match exit.frame.popN call.target.descriptor.resultSlots with
  | .error e => .error e
  | .ok (returned, _) =>
    match s.frame.popN call.target.parameterSlots with
    | .error e => .error e
    | .ok (_, frame) =>
      .ok ⟨s.node, { frame with stack := returned ++ frame.stack }, exit.statics⟩

def entryMark : String := "$entry"

def markEntry (s : MachineState V) (value : V) : MachineState V :=
  { s with statics := s.statics.set entryMark value }

/-- Reduces and marks; the mark depends on whether the method is static. -/
def reduceMarked (mark : Bool → V) (s : MachineState V) (entry : NodeId) (call : Call) :
    Except Fault (MachineState V) :=
  (s.reduce entry call).map (·.markEntry (mark call.target.isStatic))

end MachineState

end BytecodeFlow
