import BytecodeFlow.Domain.Basic
import BytecodeFlow.Fixpoint.OrderedSet

/-!
# Reached sets

The states that an analysis has admitted, in insertion order. Merging and coverage look only at the
states that are comparable with a given one: all of them in a plain set, those at the same node in a
located one.
-/
namespace BytecodeFlow

class ReachedSet (R : Type) (S : outParam Type) where
  /-- All states, in insertion order. -/
  states : R → List S
  /-- The states that the given one is merged and compared with. -/
  comparable : R → S → List S
  contains : R → S → Bool
  size : R → Nat
  /-- Adds a state, and tells whether it is new. -/
  insert : R → S → Bool × R
  /-- Takes a state out, and tells whether it was there. -/
  erase : R → S → Bool × R
  clear : R → R

namespace ReachedSet

variable {R S : Type} [ReachedSet R S]

def add (r : R) (s : S) : R := (insert r s).2

def remove (r : R) (s : S) : R := (erase r s).2

def addAll (r : R) (l : List S) : R := l.foldl add r

def removeAll (r : R) (l : List S) : R := l.foldl remove r

def isEmpty (r : R) : Bool := size r == 0

end ReachedSet

/-- A reached set in which every state is compared with every other. -/
instance {S : Type} [DecidableEq S] : ReachedSet (OrderedSet S) S where
  states r := r.toList
  comparable r _ := r.toList
  contains := OrderedSet.contains
  size := OrderedSet.size
  insert r s := (!r.contains s, r.insert s)
  erase r s := (r.contains s, r.erase s)
  clear _ := .empty

def OrderedSet.text {S : Type} (write : S → String) (r : OrderedSet S) : String :=
  Text.braces (r.toList.map write)

/-- A reached set that also lists its states by their nodes. A node keeps its place among the buckets
once it has had a state. -/
structure LocatedStates (S : Type) where
  all : OrderedSet S
  buckets : List (NodeId × OrderedSet S)
  deriving DecidableEq, Repr

namespace LocatedStates

variable {S : Type}

def empty : LocatedStates S := ⟨.empty, []⟩

instance : Inhabited (LocatedStates S) := ⟨empty⟩

/-- The states at a node, in insertion order. -/
def statesAt (r : LocatedStates S) (n : NodeId) : List S :=
  match r.buckets.lookup n with
  | some b => b.toList
  | none => []

def firstAt? (r : LocatedStates S) (n : NodeId) : Option S :=
  (r.statesAt n).head?

def locations (r : LocatedStates S) : List NodeId :=
  (r.buckets.filter fun b => !b.2.isEmpty).map (·.1)

variable [DecidableEq S]

/-- Inserts into the bucket of a node, which is added at the end if there is none yet. -/
def insertAt (n : NodeId) (s : S) : List (NodeId × OrderedSet S) → List (NodeId × OrderedSet S)
  | [] => [(n, OrderedSet.empty.insert s)]
  | b :: rest => if b.1 = n then (n, b.2.insert s) :: rest else b :: insertAt n s rest

def eraseAt (n : NodeId) (s : S) : List (NodeId × OrderedSet S) → List (NodeId × OrderedSet S)
  | [] => []
  | b :: rest => if b.1 = n then (n, b.2.erase s) :: rest else b :: eraseAt n s rest

variable [Located S]

def contains (r : LocatedStates S) (s : S) : Bool := r.all.contains s

/-- Adds a state to the list of all states and to the bucket of its node, unless it is present. -/
def insert (r : LocatedStates S) (s : S) : Bool × LocatedStates S :=
  if r.all.contains s then (false, r)
  else (true, ⟨r.all.insert s, insertAt (location s) s r.buckets⟩)

def erase (r : LocatedStates S) (s : S) : Bool × LocatedStates S :=
  if r.all.contains s then (true, ⟨r.all.erase s, eraseAt (location s) s r.buckets⟩)
  else (false, r)

def add (r : LocatedStates S) (s : S) : LocatedStates S := (r.insert s).2

def remove (r : LocatedStates S) (s : S) : LocatedStates S := (r.erase s).2

theorem add_eq (r : LocatedStates S) (s : S) :
    r.add s = if r.all.contains s then r
      else ⟨r.all.insert s, insertAt (location s) s r.buckets⟩ := by
  unfold add insert
  split <;> rfl

theorem remove_eq (r : LocatedStates S) (s : S) :
    r.remove s = if r.all.contains s then ⟨r.all.erase s, eraseAt (location s) s r.buckets⟩
      else r := by
  unfold remove erase
  split <;> rfl

instance : ReachedSet (LocatedStates S) S where
  states r := r.all.toList
  comparable r s := r.statesAt (location s)
  contains := contains
  size r := r.all.size
  insert := insert
  erase := erase
  clear _ := empty

def text (write : S → String) (r : LocatedStates S) : String :=
  Text.map (r.buckets.map fun b => (toString b.1, b.2.text write))

end LocatedStates

end BytecodeFlow
