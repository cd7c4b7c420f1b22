import BytecodeFlow.Fault

/-!
# The limits of the machine that runs the analysis

Without limits, indices are natural numbers and lists are as long as they have to be. With limits, an index is a
machine word: a sum or a difference that does not fit either stops the program or wraps around. Asking at once for a
list that no allocation can hold stops the program in either case; otherwise there is enough memory.
-/
namespace BytecodeFlow

def wordCount : Nat := Nat.pow 2 64

inductive Overflow where
  | stops
  | wraps
  deriving DecidableEq, Repr

structure Bounds where
  overflow : Overflow
  /-- The number of local variables for which there is room in a frame. -/
  locals : Nat
  /-- The number of memory locations for which there is room in a list. -/
  places : Nat
  locals_lt : locals < wordCount
  deriving DecidableEq, Repr

inductive Limits where
  | ideal
  | bounded (bounds : Bounds)
  deriving DecidableEq, Repr

namespace Limits

/-- An allocation has less than `2 ^ 63` bytes, of which a label set takes 16 and a memory location 24. -/
def standard (overflow : Overflow) : Limits :=
  .bounded ⟨overflow, (Nat.pow 2 63 - 1) / 16, (Nat.pow 2 63 - 1) / 24, by decide⟩

def add (limits : Limits) (m n : Nat) : Except Fault Nat :=
  match limits with
  | ideal => .ok (m + n)
  | bounded b =>
    if m + n < wordCount then .ok (m + n)
    else match b.overflow with
      | .stops => .error .crash
      | .wraps => .ok ((m + n) % wordCount)

def sub (limits : Limits) (m n : Nat) : Except Fault Nat :=
  if n ≤ m then .ok (m - n)
  else match limits with
    | bounded ⟨.wraps, _, _, _⟩ => .ok (m + wordCount - n)
    | _ => .error .crash

def holdsLocals : Limits → Nat → Bool
  | ideal, _ => true
  | bounded b, count => count ≤ b.locals

def holdsPlaces : Limits → Nat → Bool
  | ideal, _ => true
  | bounded b, count => count ≤ b.places

end Limits

end BytecodeFlow
