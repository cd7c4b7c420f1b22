import BytecodeFlow.Domain.Basic

/-!
# Domains of integers

Small domains in which the effects of merging and coverage are easy to follow: integers in their
order, integers without an order, integers that jump to a bound instead of growing, and counters at a
program point.
-/
namespace BytecodeFlow

/-- Integers by size, joined to the larger one. -/
structure Counter where
  value : Int
  deriving DecidableEq, Repr

instance : JoinDomain Counter where
  le a b := a.value ≤ b.value
  join a b := ⟨max a.value b.value⟩

/-- Integers that are only related to themselves. -/
structure Flat where
  value : Int
  deriving DecidableEq, Repr

instance : JoinDomain Flat where
  le a b := a == b
  join a _ := a
  joinable a b := a == b

/-- Integers by size; joining a larger one to a smaller one gives `Widening.bound`. -/
structure Widening where
  value : Int
  deriving DecidableEq, Repr

def Widening.bound : Int := 1000

instance : JoinDomain Widening where
  le a b := a.value ≤ b.value
  join a b := if a.value ≤ b.value then b else ⟨Widening.bound⟩

/-- A counter at a program point. -/
structure Positioned where
  node : NodeId
  value : Int
  deriving DecidableEq, Repr

def Positioned.text (s : Positioned) : String := s!"{s.node}:{s.value}"

instance : Located Positioned where
  location s := s.node
  relocate n s := { s with node := n }

instance : JoinDomain Positioned where
  le a b := a.node == b.node && decide (a.value ≤ b.value)
  join a b := ⟨a.node, max a.value b.value⟩
  joinable a b := a.node == b.node

inductive IntegerRule where
  /-- Grows by `step` up to `ceiling`. -/
  | climb (step ceiling : Int)
  /-- Maps n to the remainder of `a * n + b` by `m`, which is never negative. -/
  | affine (a b m : Int)
  deriving DecidableEq, Repr

def IntegerRule.apply : IntegerRule → Int → Option Int
  | climb step ceiling, n => if n < ceiling then some (min (n + step) ceiling) else none
  | affine a b m, n => some ((a * n + b) % m)

/-- From one program point to another, growing by `delta` up to `cap`. -/
structure Passage where
  source : NodeId
  target : NodeId
  delta : Int
  cap : Int
  deriving DecidableEq, Repr

def Passage.apply (r : Passage) (s : Positioned) : Option Positioned :=
  if s.node = r.source then some ⟨r.target, min (s.value + r.delta) r.cap⟩ else none

end BytecodeFlow
