import BytecodeFlow.Machine.State
import BytecodeFlow.Notice

/-!
# Executing instructions

Instructions move values between the slots of a state; every new value comes from an interpreter.
A return leaves its value on the stack, where the caller picks it up.
-/
namespace BytecodeFlow

/-- Where new values come from. Operands and arguments are listed from the top of the stack, so the
receiver of an instance call comes last. -/
structure Interpreter (V : Type) where
  /-- The value pushed by an instruction that combines its operands. -/
  result : Instruction → List V → V
  /-- The value returned by a call that is not followed into its target. -/
  invoke : Method → List V → V
  /-- The value on the stack at the start of an exception handler. -/
  caught : V

namespace Frame

variable {V : Type}

/-- The effect of a stack manipulation, as a map of the whole stack from the top. -/
def rearrange (f : Frame V) (g : List V → Option (List V)) : Except Fault (Frame V) :=
  match g f.stack with
  | some stack => .ok { f with stack }
  | none => .error (.contract (.state .emptyStack))

/-- Pushes the local variables `index`, …, `index + count - 1`, the last one first. -/
def pushVars (limits : Limits) (f : Frame V) (index : Nat) : Nat → Except Fault (Frame V)
  | 0 => .ok f
  | count + 1 =>
    match limits.add index count with
    | .error e => .error e
    | .ok last =>
      match f.var? last with
      | none => .error (.contract (.state (.unsetLoad last)))
      | some v => (f.push v).pushVars limits index count

/-- Pops operands and pushes what is computed from them, if anything is pushed. -/
def combine (f : Frame V) (i : Instruction) (compute : List V → V) : Except Fault (Frame V) :=
  match f.popN i.pops with
  | .error e => .error e
  | .ok (operands, f) => .ok (f.pushN (compute operands) i.pushes)

end Frame

namespace MachineState

variable {V : Type} [Inhabited V]

def withFrame (s : MachineState V) : Except Fault (Frame V) → Except Fault (MachineState V)
  | .ok frame => .ok { s with frame }
  | .error e => .error e

def execute (I : Interpreter V) (i : Instruction) (s : MachineState V) (limits : Limits := .ideal) :
    Except Fault (MachineState V) :=
  match i.operation with
  | .dup => s.withFrame <| s.frame.rearrange fun
    | a :: r => some (a :: a :: r)
    | _ => none
  | .dupX1 => s.withFrame <| s.frame.rearrange fun
    | a :: b :: r => some (a :: b :: a :: r)
    | _ => none
  | .dupX2 => s.withFrame <| s.frame.rearrange fun
    | a :: b :: c :: r => some (a :: b :: c :: a :: r)
    | _ => none
  | .dup2 => s.withFrame <| s.frame.rearrange fun
    | a :: b :: r => some (a :: b :: a :: b :: r)
    | _ => none
  | .dup2X1 => s.withFrame <| s.frame.rearrange fun
    | a :: b :: c :: r => some (a :: b :: c :: a :: b :: r)
    | _ => none
  | .dup2X2 => s.withFrame <| s.frame.rearrange fun
    | a :: b :: c :: d :: r => some (a :: b :: c :: d :: a :: b :: r)
    | _ => none
  | .swap => s.withFrame <| s.frame.rearrange fun
    | a :: b :: r => some (b :: a :: r)
    | _ => none
  | .ret => .ok s
  | .load index => s.withFrame (s.frame.pushVars limits index i.pushes)
  | .store index =>
    match s.frame.popN i.pops with
    | .error e => .error e
    | .ok (values, frame) => s.withFrame (frame.setVars limits index values)
  | .increment index =>
    match s.frame.var? index with
    | none => .error (.contract (.state (.unsetIncrement index)))
    | some v => s.withFrame (s.frame.setVar limits index (I.result i [v]))
  | .getStatic field =>
    .ok { s with frame := s.frame.pushN ((s.statics.get? field).getD default) i.pushes }
  | .putStatic field =>
    match s.frame.popN i.pops with
    | .error e => .error e
    | .ok ([], frame) => .ok { s with frame }
    | .ok (v :: _, frame) => .ok { s with frame, statics := s.statics.set field v }
  | .invoke _ target => s.withFrame (s.frame.combine i (I.invoke target))
  | .arrayLoad | .arrayStore | .simple | .getField _ | .putField _ | .new | .branch | .switch =>
    s.withFrame (s.frame.combine i (I.result i))

/-- The state at the start of an exception handler: the stack holds only the exception. -/
def catchException (I : Interpreter V) (s : MachineState V) : MachineState V :=
  { s with frame := s.frame.clearStack.push I.caught }

/-- The states after one edge, still at the node where it starts. Call edges have no effect of their
own: it is the invocation's edge that stands for the call. -/
def along (I : Interpreter V) (s : MachineState V) (e : Edge) (limits : Limits := .ideal) :
    Except Fault (List (MachineState V)) :=
  match e.label with
  | .instruction i =>
    match s.execute I i limits with
    | .ok t => .ok [t]
    | .error e => .error e
  | .handler => .ok [s.catchException I]
  | .call _ => .ok []

end MachineState

def Edge.notices (e : Edge) : List Notice :=
  match e.label with
  | .call _ => [.ignoredEdge e.id]
  | _ => []

namespace Interpreter

def describe : String := Text.quoted "JvmTransferRelation"

end Interpreter

end BytecodeFlow
