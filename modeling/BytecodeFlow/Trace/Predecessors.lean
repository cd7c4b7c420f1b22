import BytecodeFlow.Instruction
import BytecodeFlow.Machine.Limits
import BytecodeFlow.Machine.Location

/-!
# Where a value came from inside an instruction

For a memory location after an instruction, the locations before it that its value may depend on. Slots are computed
by the arithmetic of the machine that runs the analysis.
-/
namespace BytecodeFlow

namespace Instruction

def popped (limits : Limits) (count : Nat) : Except Fault (List MemoryLocation) :=
  if limits.holdsPlaces count then .ok (MemoryLocation.topSlots count) else .error .crash

/-- The slot that many positions further down. -/
def deeper (limits : Limits) (index count : Nat) : Except Fault (List MemoryLocation) :=
  (limits.add index count).map fun slot => [.stack slot]

/-- The location before an instruction that combines all popped values into every pushed one. -/
def shifted (limits : Limits) (i : Instruction) : MemoryLocation → Except Fault (List MemoryLocation)
  | .stack index =>
    if i.pushes ≤ index then deeper limits (index - i.pushes) i.pops else popped limits i.pops
  | l => .ok [l]

/-- The slot before a stack manipulation that a pushed slot is a copy of. A swap pushes two slots; there is no source
of any further one. -/
def copySource (limits : Limits) (o : Operation) (index : Nat) : Except Fault Nat :=
  match o with
  | .dup => .ok 0
  | .dupX1 => .ok (if index = 2 then 0 else index)
  | .dupX2 => .ok (if index = 3 then 0 else index)
  | .dup2 => .ok (if 1 < index then index - 2 else index)
  | .dup2X1 => .ok (if 2 < index then index - 3 else index)
  | .dup2X2 => .ok (if 3 < index then index - 4 else index)
  | .swap => limits.sub 1 index
  | _ => .ok index

def pushedIndex? (i : Instruction) : MemoryLocation → Option Nat
  | .stack index => if index < i.pushes then some index else none
  | _ => none

/-- The location in front of the popped slots, for an instruction that pushes nothing. -/
def beneath (limits : Limits) (i : Instruction) : MemoryLocation → Except Fault (List MemoryLocation)
  | .stack index => deeper limits index i.pops
  | l => .ok [l]

/-- The locations before the instruction on which the given one after it may depend. Calls can be
declared to reach further locations from their arguments; `reaches` says whether one that starts
here reaches the given location. -/
def predecessors (i : Instruction) (reaches : Bool) (l : MemoryLocation) (limits : Limits := .ideal) :
    Except Fault (List MemoryLocation) :=
  match i.operation with
  | .ret | .increment _ => .ok [l]
  | .dup | .dupX1 | .dupX2 | .dup2 | .dup2X1 | .dup2X2 | .swap =>
    match i.pushedIndex? l with
    | none => i.shifted limits l
    | some index => (copySource limits i.operation index).map fun slot => [.stack slot]
  | .arrayLoad =>
    match i.pushedIndex? l with
    | none => i.shifted limits l
    | some _ => .ok [.stack 0, .stack 1]
  | .load variableIndex =>
    match i.pushedIndex? l with
    | none => i.shifted limits l
    | some index => do
      let places ← i.shifted limits l
      return places ++ [.var (← limits.add variableIndex index)]
  | .store variableIndex =>
    match l with
    | .var index =>
      if index = variableIndex then popped limits i.pops
      else if i.pops = 2 then
        (limits.add variableIndex 1).map fun second => if index = second then [.stack 1] else [l]
      else .ok [l]
    | _ => i.beneath limits l
  | .getStatic field =>
    match i.pushedIndex? l with
    | none => i.shifted limits l
    | some _ => (i.shifted limits l).map (· ++ [.static field])
  | .putStatic field => if l = .static field then popped limits i.pops else i.beneath limits l
  | .putField _ => i.beneath limits l
  | .invoke .. => do
    let places ← i.shifted limits l
    if reaches then return places ++ (← popped limits i.pops) else return places
  | .arrayStore | .simple | .getField _ | .new | .branch | .switch => i.shifted limits l

end Instruction

end BytecodeFlow
