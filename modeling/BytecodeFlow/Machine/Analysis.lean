import BytecodeFlow.Machine.Passing
import BytecodeFlow.Machine.Transfer
import BytecodeFlow.Summary.Analysis

/-!
# The analysis of machine states

Machine states follow the edges of a flow graph by executing instructions, without any further state, and are
passed to callees and back in the usual way.
-/
namespace BytecodeFlow.Interpreter

variable {V P : Type} [Inhabited V]

def interprocedural (I : Interpreter V) (g : FlowGraph) (O : Operators (MachineState V) P) (options : Options)
    (limits : Limits := .ideal) : Interprocedural (MachineState V) P where
  graph := g
  relation := .stateless fun s e _ => s.along I e limits
  operators := O
  reduce := MachineState.reduce
  expand s x _ call := s.expand x call
  options := options

/-- The analysis of machine states that joins all states at one node. -/
abbrev joining [JoinDomain V] [DecidableEq V] (I : Interpreter V) (g : FlowGraph) (options : Options) :
    Interprocedural (MachineState V) P :=
  I.interprocedural g .join options

end BytecodeFlow.Interpreter
