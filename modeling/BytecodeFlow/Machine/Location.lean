import BytecodeFlow.Domain.Basic

/-!
# Memory locations

The places inside a machine state that hold a value, and the same places at a node of a flow graph.
-/
namespace BytecodeFlow

inductive MemoryLocation where
  /-- A local variable. -/
  | var (index : Nat)
  /-- A slot of the operand stack, counted from the top. -/
  | stack (index : Nat)
  /-- A static field, by its fully qualified name. -/
  | static (field : String)
  /-- A field of a heap object. Machine states do not hold these. -/
  | heap (field : String)
  deriving DecidableEq, Repr

namespace MemoryLocation

def text : MemoryLocation → String
  | var index => s!"local {index}"
  | stack index => s!"stack {index}"
  | static field => s!"static {field}"
  | heap field => s!"heap {field}"

/-- The place of the kind in the order of locations. -/
def rank : MemoryLocation → Nat
  | var _ => 0
  | stack _ => 1
  | static _ => 2
  | heap _ => 3

/-- Local variables, stack slots, static fields and heap fields follow one another; within one kind
the order is by index or by name. -/
def le (a b : MemoryLocation) : Bool :=
  match a, b with
  | var i, var j | stack i, stack j => i ≤ j
  | static f, static g | heap f, heap g => f ≤ g
  | _, _ => a.rank ≤ b.rank

def isHeap : MemoryLocation → Bool
  | heap _ => true
  | _ => false

def topSlots (count : Nat) : List MemoryLocation :=
  (List.range count).map stack

end MemoryLocation

structure Site where
  place : MemoryLocation
  node : NodeId
  deriving DecidableEq, Repr

def Site.text (s : Site) : String :=
  s!"{s.place.text} at node {s.node}"

class Observable (S : Type) (V : outParam Type) where
  /-- The value at the location, if the state has one there. -/
  valueAt? : S → MemoryLocation → Option V

export Observable (valueAt?)

/-- The value at the location, or the default if the state has none there. -/
def MemoryLocation.valueIn {S V : Type} [Observable S V] (l : MemoryLocation) (s : S) (default : V) : V :=
  (valueAt? s l).getD default

end BytecodeFlow
