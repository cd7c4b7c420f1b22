import BytecodeFlow.Domain.Basic

/-!
# Policies of an analysis

How a new state is merged with reached ones, when it counts as covered, and how a state and its
precision are adjusted before the state is explored.
-/
namespace BytecodeFlow

structure Operators (S P : Type) where
  /-- Combines a new state with a reached one; a result that differs replaces the reached state. -/
  merge : S → S → P → S
  /-- Whether a state is covered by the comparable reached ones. -/
  stop : S → List S → P → Bool
  /-- Adjusts a state and its precision, given the comparable reached states. -/
  adjust : S → P → List S → S × P

namespace Operators

variable {S P : Type}

/-! ### Merging -/

/-- Leaves the reached state as it is. -/
def mergeSep (_new reached : S) (_ : P) : S := reached

/-- Joins the two states if they can be joined. -/
def mergeJoin [JoinDomain S] (new reached : S) (_ : P) : S :=
  if JoinDomain.joinable new reached then JoinDomain.join new reached else reached

/-! ### Coverage -/

/-- Covered if some reached state is above. -/
def stopSep [Domain S] (s : S) (reached : List S) (_ : P) : Bool :=
  reached.any (Domain.le s)

/-- Always covered: new states are only admitted by being merged. -/
def stopAlways (_ : S) (_ : List S) (_ : P) : Bool := true

/-- Covered if the state itself has been reached. -/
def stopContained [DecidableEq S] (s : S) (reached : List S) (_ : P) : Bool :=
  decide (s ∈ reached)

/-! ### Adjustment -/

def adjustNone (s : S) (p : P) (_ : List S) : S × P := (s, p)

/-- Once `bound` comparable states have been reached, replaces the state and raises the precision. -/
def adjustFrom (bound : Nat) (replacement : Option S) (delta : Int) (s : S) (p : Int)
    (reached : List S) : S × Int :=
  if bound ≤ reached.length then (replacement.getD s, p + delta) else (s, p)

/-- Neither merges nor adjusts. -/
def sep [Domain S] : Operators S P := ⟨mergeSep, stopSep, adjustNone⟩

def join [JoinDomain S] : Operators S P := ⟨mergeJoin, stopSep, adjustNone⟩

def describe : String := Text.quoted "CpaOperators"

end Operators

end BytecodeFlow
