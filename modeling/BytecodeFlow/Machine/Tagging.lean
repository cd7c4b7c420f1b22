import BytecodeFlow.Domain.Powerset
import BytecodeFlow.Machine.Transfer

/-!
# Interpreting values as sets of labels

A value is the set of labels of everything that it was computed from. On request each label is tagged
once with the position of the operand that carried it and with the operation that combined it.
-/
namespace BytecodeFlow

structure Tagging where
  /-- Whether labels are tagged when values are combined. -/
  tagged : Bool
  /-- The value of results without operands. -/
  fresh : Labels
  /-- The value of exceptions. -/
  caught : Labels

namespace Tagging

/-- What separates a label from its tag. -/
def mark : Char := '@'

/-- Tags a label of the operand at `index`, unless it has a tag. -/
def tag (label : String) (index : Nat) (suffix : String) : String :=
  if label.toList.contains mark then label else s!"{label}{mark}{index}{suffix}"

/-- The labels of the operands from `index` on. -/
def labelsFrom (T : Tagging) (suffix : String) (index : Nat) : List Labels → List String
  | [] => []
  | v :: vs =>
    (if T.tagged then v.elements.map (tag · index suffix) else v.elements) ++
      T.labelsFrom suffix (index + 1) vs

def combine (T : Tagging) (operands : List Labels) (suffix : String) : Labels :=
  if operands.isEmpty then T.fresh else Powerset.ofList (T.labelsFrom suffix 0 operands)

/-- Methods whose name starts so return a label of their own. -/
def sourceName : String := "source"

def interpreter (T : Tagging) : Interpreter Labels where
  result i operands := T.combine operands s!"/{i.pops}>{i.pushes}"
  invoke target arguments :=
    if target.name.startsWith sourceName then Powerset.singleton target.name
    else T.combine arguments s!"!{target.name}"
  caught := T.caught

end Tagging

end BytecodeFlow
