import BytecodeFlow.Domain.Basic
import BytecodeFlow.Machine.Limits

/-!
# Frames

The local variables and the operand stack of one method activation. The stack is listed from its
top. Two frames are joined slot by slot, with their stacks aligned at the bottom; slots that only one
side has are kept as they are.
-/
namespace BytecodeFlow

structure Frame (V : Type) where
  locals : List V
  stack : List V
  deriving DecidableEq, Repr

/-- Joins two lists position by position and keeps the rest of the longer one. -/
def joinSlots {V : Type} [JoinDomain V] : List V → List V → List V
  | [], r => r
  | l, [] => l
  | a :: l, b :: r => JoinDomain.join a b :: joinSlots l r

/-- Replaces the element at an index, filling skipped positions with the default. -/
def setSlot {V : Type} [Inhabited V] (index : Nat) (value : V) (l : List V) : List V :=
  if index < l.length then l.set index value
  else l ++ List.replicate (index - l.length) default ++ [value]

namespace Frame

variable {V : Type}

def empty : Frame V := ⟨[], []⟩

def var? (f : Frame V) (index : Nat) : Option V := f.locals[index]?

def peek? (f : Frame V) (index : Nat) : Option V := f.stack[index]?

/-- Sets a local variable, for which the frame may have to grow. -/
def setVar [Inhabited V] (limits : Limits) (f : Frame V) (index : Nat) (value : V) : Except Fault (Frame V) :=
  if index < f.locals.length ∨ limits.holdsLocals (index + 1) then
    .ok { f with locals := setSlot index value f.locals }
  else .error .crash

/-- Sets consecutive local variables. No index overflows: there is never room for a variable at the last one. -/
def setVars [Inhabited V] (limits : Limits) (f : Frame V) (index : Nat) : List V → Except Fault (Frame V)
  | [] => .ok f
  | v :: vs =>
    match f.setVar limits index v with
    | .error e => .error e
    | .ok f => f.setVars limits (index + 1) vs

def push (f : Frame V) (value : V) : Frame V :=
  { f with stack := value :: f.stack }

def pushN (f : Frame V) (value : V) (count : Nat) : Frame V :=
  { f with stack := List.replicate count value ++ f.stack }

def pop (f : Frame V) : Except Fault (V × Frame V) :=
  match f.stack with
  | [] => .error (.contract (.state .emptyStack))
  | v :: rest => .ok (v, { f with stack := rest })

/-- Pops several slots at once and returns them from the top. -/
def popN (f : Frame V) (count : Nat) : Except Fault (List V × Frame V) :=
  if f.stack.length < count then .error (.contract (.state (.shortStack count f.stack.length)))
  else .ok (f.stack.take count, { f with stack := f.stack.drop count })

def clearStack (f : Frame V) : Frame V :=
  { f with stack := [] }

def join [JoinDomain V] (f g : Frame V) : Frame V :=
  ⟨joinSlots f.locals g.locals, (joinSlots f.stack.reverse g.stack.reverse).reverse⟩

def text (write : V → String) (f : Frame V) : String :=
  Text.record "JvmFrame"
    [("locals", Text.list (f.locals.map write)), ("stack", Text.list (f.stack.map write))]

end Frame

end BytecodeFlow
