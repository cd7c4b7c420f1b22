import BytecodeFlow.Fixpoint.OrderedSet
import BytecodeFlow.Text.Layout

/-!
# Waitlists

The states that an analysis still has to explore. The order of a waitlist only decides which of them
is handed out next.
-/
namespace BytecodeFlow

inductive Order where
  /-- The state added last comes first. -/
  | depthFirst
  /-- The state added first comes first. -/
  | breadthFirst
  deriving DecidableEq, Repr, Inhabited

def Order.text : Order → String
  | depthFirst => "DepthFirst"
  | breadthFirst => "BreadthFirst"

structure Waitlist (S : Type) where
  order : Order
  pending : OrderedSet S
  deriving DecidableEq, Repr

namespace Waitlist

variable {S : Type}

def empty (order : Order) : Waitlist S := ⟨order, .empty⟩

def size (w : Waitlist S) : Nat := w.pending.size

def isEmpty (w : Waitlist S) : Bool := w.pending.isEmpty

def clear (w : Waitlist S) : Waitlist S := { w with pending := .empty }

def pop? (w : Waitlist S) : Option (S × Waitlist S) :=
  let next := match w.order with
    | .depthFirst => w.pending.popLast?
    | .breadthFirst => w.pending.popFirst?
  next.map fun p => (p.1, { w with pending := p.2 })

/-- The pending states in the order in which they would be handed out. -/
def toList (w : Waitlist S) : List S :=
  match w.order with
  | .depthFirst => w.pending.toList.reverse
  | .breadthFirst => w.pending.toList

variable [DecidableEq S]

def contains (w : Waitlist S) (s : S) : Bool := w.pending.contains s

def add (w : Waitlist S) (s : S) : Waitlist S := { w with pending := w.pending.insert s }

def addAll (w : Waitlist S) (l : List S) : Waitlist S := l.foldl add w

def remove (w : Waitlist S) (s : S) : Waitlist S := { w with pending := w.pending.erase s }

def removeAll (w : Waitlist S) (l : List S) : Waitlist S := l.foldl remove w

def text (write : S → String) (w : Waitlist S) : String :=
  Text.list (w.toList.map write)

end Waitlist

end BytecodeFlow
