import BytecodeFlow.Method.Descriptor

/-!
# Methods

A method is identified by its class, its name, its descriptor and whether it is static. On entry its
arguments lie in the leading local variables, the receiver of an instance method first; just before
the call they lie on the caller's operand stack, the last argument on top.
-/
namespace BytecodeFlow

structure Method where
  owner : String
  name : String
  descriptor : Descriptor
  isStatic : Bool
  deriving DecidableEq, Repr

namespace Method

def make (owner name descriptor : String) (isStatic : Bool) : Except Violation Method :=
  match Descriptor.parse descriptor with
  | .ok d => .ok ⟨owner, name, d, isStatic⟩
  | .error e => .error e

/-- The fully qualified name, for example `LFoo;bar(I)V`. -/
def qualifiedName (m : Method) : String :=
  s!"L{m.owner};{m.name}{m.descriptor.text}"

def receiverSlots (m : Method) : Nat :=
  if m.isStatic then 0 else 1

/-- The number of local variables that the receiver and the parameters take on entry. -/
def parameterSlots (m : Method) : Nat :=
  m.descriptor.argumentSlots + m.receiverSlots

/-- Consecutive slot ranges, as first slot and size, for values of these types from `start` on. -/
def layoutFrom (start : Nat) : List FieldType → List (Nat × Nat)
  | [] => []
  | t :: ts => (start, t.slots) :: layoutFrom (start + t.slots) ts

/-- The first local variable and the size of each parameter, the receiver first. -/
def layout (m : Method) : List (Nat × Nat) :=
  if m.isStatic then layoutFrom 0 m.descriptor.parameters
  else (0, 1) :: layoutFrom 1 m.descriptor.parameters

/-- The slot of the caller's operand stack, counted from the top, that is passed as the given local
variable. Only parameters have one. -/
def argumentSlot? (m : Method) (index : Nat) : Option Nat :=
  (m.layout.find? fun r => r.1 ≤ index && index < r.1 + r.2).map fun r =>
    m.parameterSlots - r.1 - r.2 + (index - r.1)

end Method

end BytecodeFlow
