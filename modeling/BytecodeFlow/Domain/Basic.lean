import BytecodeFlow.FlowGraph.Basic

/-!
# Abstract domains

Elements of a domain approximate sets of concrete states. Equality is used to tell states apart;
the order of the domain says which states cover which. A domain may fall into parts, such as states
at different program points, whose elements cannot be joined with one another.
-/
namespace BytecodeFlow

class Domain (S : Type) where
  /-- Whether everything described by the first state is described by the second. -/
  le : S → S → Bool

class JoinDomain (S : Type) extends Domain S where
  join : S → S → S
  /-- Whether the join of two states covers both. -/
  joinable : S → S → Bool := fun _ _ => true

class Located (S : Type) where
  location : S → NodeId
  relocate : NodeId → S → S

export Located (location relocate)

end BytecodeFlow
