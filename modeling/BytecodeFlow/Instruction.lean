import BytecodeFlow.Method.Signature

/-!
# Instructions

Bytecode instructions as the analyses tell them apart: an operation with the number of slots that it
pops and pushes. Arithmetic, conversions, comparisons and literals are all `simple`, since only
their stack effect matters here. Values of two slots (longs and doubles) are wide.
-/
namespace BytecodeFlow

inductive Dispatch where
  | static
  | virtual
  | special
  | interface
  | dynamic
  deriving DecidableEq, Repr

namespace Dispatch

def hasReceiver : Dispatch → Bool
  | static | dynamic => false
  | _ => true

def text : Dispatch → String
  | static => "Static"
  | virtual => "Virtual"
  | special => "Special"
  | interface => "Interface"
  | dynamic => "Dynamic"

def ofText? (name : String) : Option Dispatch :=
  [static, virtual, special, interface, dynamic].find? (·.text == name)

end Dispatch

inductive Operation where
  | dup
  | dupX1
  | dupX2
  | dup2
  | dup2X1
  | dup2X2
  | swap
  | arrayLoad
  | arrayStore
  | ret
  | simple
  | load (index : Nat)
  | store (index : Nat)
  | increment (index : Nat)
  | getStatic (field : String)
  | putStatic (field : String)
  | getField (field : String)
  | putField (field : String)
  | invoke (dispatch : Dispatch) (target : Method)
  | new
  | branch
  | switch
  deriving DecidableEq, Repr

def Operation.mnemonic : Operation → String
  | dup => "dup"
  | dupX1 => "dup_x1"
  | dupX2 => "dup_x2"
  | dup2 => "dup2"
  | dup2X1 => "dup2_x1"
  | dup2X2 => "dup2_x2"
  | swap => "swap"
  | arrayLoad => "xaload"
  | arrayStore => "xastore"
  | ret => "return"
  | simple => "simple"
  | load _ => "load"
  | store _ => "store"
  | increment _ => "iinc"
  | getStatic _ => "getstatic"
  | putStatic _ => "putstatic"
  | getField _ => "getfield"
  | putField _ => "putfield"
  | invoke .. => "invoke"
  | new => "new"
  | branch => "branch"
  | switch => "switch"

structure Instruction where
  operation : Operation
  pops : Nat
  pushes : Nat
  deriving DecidableEq, Repr

namespace Instruction

def slots (wide : Bool) : Nat :=
  if wide then 2 else 1

/-! ### The instructions with their stack effects -/

def dup : Instruction := ⟨.dup, 1, 2⟩
def dupX1 : Instruction := ⟨.dupX1, 2, 3⟩
def dupX2 : Instruction := ⟨.dupX2, 3, 4⟩
def dup2 : Instruction := ⟨.dup2, 2, 4⟩
def dup2X1 : Instruction := ⟨.dup2X1, 3, 5⟩
def dup2X2 : Instruction := ⟨.dup2X2, 4, 6⟩
def swap : Instruction := ⟨.swap, 2, 2⟩

/-- Pops the array and the index. -/
def arrayLoad (wide : Bool) : Instruction := ⟨.arrayLoad, 2, slots wide⟩

def arrayStore (wide : Bool) : Instruction := ⟨.arrayStore, 2 + slots wide, 0⟩

/-- Returns a value of `size` slots; a method without a result returns none. -/
def ret (size : Nat) : Instruction := ⟨.ret, size, 0⟩

def simple (pops pushes : Nat) : Instruction := ⟨.simple, pops, pushes⟩
def load (index : Nat) (wide : Bool) : Instruction := ⟨.load index, 0, slots wide⟩
def store (index : Nat) (wide : Bool) : Instruction := ⟨.store index, slots wide, 0⟩
def increment (index : Nat) : Instruction := ⟨.increment index, 0, 0⟩
def getStatic (field : String) (wide : Bool) : Instruction := ⟨.getStatic field, 0, slots wide⟩
def putStatic (field : String) (wide : Bool) : Instruction := ⟨.putStatic field, slots wide, 0⟩
def getField (field : String) (wide : Bool) : Instruction := ⟨.getField field, 1, slots wide⟩
def putField (field : String) (wide : Bool) : Instruction := ⟨.putField field, 1 + slots wide, 0⟩

/-- The stack effect follows from the target's descriptor and from whether a receiver is passed. -/
def invoke (dispatch : Dispatch) (target : Method) : Instruction :=
  ⟨.invoke dispatch target, target.descriptor.argumentSlots + (if dispatch.hasReceiver then 1 else 0),
    target.descriptor.resultSlots⟩

def new : Instruction := ⟨.new, 0, 1⟩
def branch (pops : Nat) : Instruction := ⟨.branch, pops, 0⟩
def switch : Instruction := ⟨.switch, 1, 0⟩

/-! ### Queries -/

def isInvoke (i : Instruction) : Bool :=
  match i.operation with
  | .invoke .. => true
  | _ => false

def isReturn (i : Instruction) : Bool :=
  i.operation == .ret

/-- Whether the single value that the instruction loads or stores takes two slots. -/
def isWide (i : Instruction) : Bool :=
  match i.operation with
  | .load _ | .getStatic _ | .getField _ => i.pushes == 2
  | .store _ | .putStatic _ => i.pops == 2
  | .putField _ => i.pops == 3
  | _ => false

def passesReceiver? (i : Instruction) : Option Bool :=
  match i.operation with
  | .invoke dispatch _ => some dispatch.hasReceiver
  | _ => none

def text (i : Instruction) : String :=
  match i.operation with
  | .load index | .store index | .increment index => s!"{i.operation.mnemonic} {index}"
  | .getStatic field | .putStatic field | .getField field | .putField field =>
    s!"{i.operation.mnemonic} {field}"
  | .invoke dispatch target => s!"invoke {dispatch.text} {target.qualifiedName}"
  | _ => s!"{i.operation.mnemonic} (-{i.pops} +{i.pushes})"

end Instruction

end BytecodeFlow
