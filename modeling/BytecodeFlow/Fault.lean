/-!
# Faults

A fault is a violated contract or the end of the program. Contracts are violated by a malformed
descriptor, a state whose shape does not fit the operation applied to it, a procedure without code,
or a memory location that cannot be traced; every kind of violation has a stable number. The program
ends where the machine's limits are exceeded. Expected incompleteness (recursion, unknown callees,
missing results) is never a fault.
-/
namespace BytecodeFlow

inductive DescriptorFault where
  | missingOpen
  | openParameters
  | openClass
  | unexpectedCharacter
  | missingType
  | trailingText
  | other (reason : String)
  deriving DecidableEq, Repr

def DescriptorFault.reason : DescriptorFault → String
  | missingOpen => "expected `(`"
  | openParameters => "unterminated parameter list"
  | openClass => "unterminated class type"
  | unexpectedCharacter => "unexpected character"
  | missingType => "missing type"
  | trailingText => "trailing characters after the return type"
  | other reason => reason

inductive StateFault where
  | emptyStack
  | shortStack (count size : Nat)
  | unsetLoad (index : Nat)
  | unsetIncrement (index : Nat)
  | missingArguments (target : String) (needed size : Nat)
  | misplacedEntry (method : String) (node entry : Nat)
  | other (reason : String)
  deriving DecidableEq, Repr

def nodeText (n : Nat) : String :=
  s!"NodeIndex({n})"

def StateFault.reason : StateFault → String
  | emptyStack => "pop from an empty operand stack"
  | shortStack count size => s!"cannot pop {count} slots from an operand stack of {size}"
  | unsetLoad index => s!"load from unset local variable {index}"
  | unsetIncrement index => s!"increment of unset local variable {index}"
  | missingArguments target needed size =>
    s!"call to {target} needs {needed} argument slots, the operand stack has {size}"
  | misplacedEntry method node entry =>
    s!"the initial state of {method} is at {nodeText node}, not at its entry {nodeText entry}"
  | other reason => reason

inductive Violation where
  /-- A memory location that has no predecessors in a backward step. -/
  | unsupportedLocation (location : String)
  | descriptor (text : String) (cause : DescriptorFault)
  | state (cause : StateFault)
  /-- A procedure that has no entry in the flow graph. -/
  | missingProcedure (method : String)
  deriving DecidableEq, Repr

namespace Violation

/-- The stable number of the kind of violation. -/
def code : Violation → Nat
  | unsupportedLocation _ => 9000
  | descriptor .. => 9001
  | state _ => 9002
  | missingProcedure _ => 9003

def kind : Violation → String
  | unsupportedLocation _ => "UnsupportedMemoryLocation"
  | descriptor .. => "MalformedDescriptor"
  | state _ => "MalformedState"
  | missingProcedure _ => "MissingProcedure"

/-- The name that goes with the number. -/
def identifier : Violation → String
  | unsupportedLocation _ => "MemoryLocationTransferRelationTypeUnsupported"
  | descriptor .. => "MalformedMethodDescriptor"
  | state _ => "MalformedAbstractState"
  | missingProcedure _ => "MissingProcedure"

def tag (v : Violation) : String :=
  s!"E{v.code}"

/-- What is wrong, without the number. -/
def detail : Violation → String
  | unsupportedLocation location => s!"unsupported memory location type {location}"
  | descriptor text cause => s!"malformed method descriptor `{text}`: {cause.reason}"
  | state cause => s!"malformed abstract state: {cause.reason}"
  | missingProcedure method => s!"no control flow automaton for {method}"

def message (v : Violation) : String :=
  s!"[{v.tag}] {v.detail}"

end Violation

inductive Fault where
  | contract (violation : Violation)
  /-- The program stops. -/
  | crash
  deriving DecidableEq, Repr

end BytecodeFlow
