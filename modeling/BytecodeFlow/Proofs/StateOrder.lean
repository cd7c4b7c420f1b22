import BytecodeFlow.Proofs.LocatedJoin
import BytecodeFlow.Proofs.Monotone

/-! # The semilattice of states at a node

Whether one state lies below another is decided by joining them and comparing the result with the larger one.
States may have different numbers of variables, stacks of different heights and different fields; whatever only
one of them has is kept by the join. So the order compares place by place: the larger state has all places of
the smaller one, with the stacks aligned at their bottom, and holds at least as much at each of them. At every
node the states form a join semilattice with this order.
-/
namespace BytecodeFlow

/-! ### Optional values and lists -/

section Slots

variable {V : Type} [JoinDomain V] [ValueLattice V]

theorem under_iff {a b : Option V} : Under a b ↔ (a.isSome = true → b.isSome = true) ∧
    ∀ v w, a = some v → b = some w → Domain.le v w = true := by
  cases a with
  | none => simp [Under]
  | some v => cases b <;> simp [under_some]

/-- A list lies below another at each position if it is not longer and its values are smaller. -/
theorem forall_under_iff {l r : List V} : (∀ j : Nat, Under l[j]? r[j]?) ↔ l.length ≤ r.length ∧
    ∀ (j : Nat) (v w : V), l[j]? = some v → r[j]? = some w → Domain.le v w = true := by
  have hlength : (∀ j : Nat, l[j]?.isSome = true → r[j]?.isSome = true) ↔ l.length ≤ r.length := by
    simp only [isSome_getElem?]
    constructor
    · intro h
      by_contra hlong
      have := h r.length (by omega)
      omega
    · intro h j hj
      omega
  simp only [under_iff, forall_and, hlength]

end Slots

namespace MachineState

variable {V : Type} [JoinDomain V]

/-- The second state is at the same node, has all places of the first one and holds at least as much there. Slots
of the stack are counted from the bottom. -/
structure Within (s t : MachineState V) : Prop where
  node : s.node = t.node
  varCount : s.frame.locals.length ≤ t.frame.locals.length
  height : s.frame.stack.length ≤ t.frame.stack.length
  fields : ∀ f, (s.statics.get? f).isSome = true → (t.statics.get? f).isSome = true
  vars : ∀ (j : Nat) (v w : V), s.frame.locals[j]? = some v → t.frame.locals[j]? = some w →
    Domain.le v w = true
  slots : ∀ (j : Nat) (v w : V), s.frame.stack.reverse[j]? = some v → t.frame.stack.reverse[j]? = some w →
    Domain.le v w = true
  statics : ∀ f v w, s.statics.get? f = some v → t.statics.get? f = some w → Domain.le v w = true

variable [DecidableEq V] [ValueLattice V] {s t : MachineState V}

theorem le_iff_within : Domain.le s t = true ↔ s.Within t := by
  rw [le_iff_under, forall_under_iff, forall_under_iff, List.length_reverse, List.length_reverse]
  simp only [under_iff, forall_and]
  constructor
  · rintro ⟨hnode, ⟨hcount, hvars⟩, ⟨hheight, hslots⟩, hfields, hstatics⟩
    exact ⟨hnode, hcount, hheight, hfields, hvars, hslots, hstatics⟩
  · rintro ⟨hnode, hcount, hheight, hfields, hvars, hslots, hstatics⟩
    exact ⟨hnode, ⟨hcount, hvars⟩, ⟨hheight, hslots⟩, hfields, hstatics⟩

/-- States are partially ordered, those at different nodes are unrelated, those at one node form a join semilattice,
and the order compares them place by place. -/
theorem semilattice_at_each_node :
    (∀ s : MachineState V, Domain.le s s = true) ∧
    (∀ s t : MachineState V, Domain.le s t = true → Domain.le t s = true → s = t) ∧
    (∀ s t u : MachineState V, Domain.le s t = true → Domain.le t u = true → Domain.le s u = true) ∧
    (∀ s t : MachineState V, s.node ≠ t.node → Domain.le s t = false ∧ Domain.le t s = false) ∧
    (∀ s t : MachineState V, s.node = t.node → JoinDomain.join s t = JoinDomain.join t s) ∧
    (∀ s t u : MachineState V, s.node = t.node → t.node = u.node →
      JoinDomain.join (JoinDomain.join s t) u = JoinDomain.join s (JoinDomain.join t u)) ∧
    (∀ s : MachineState V, JoinDomain.join s s = s) ∧
    (∀ s t : MachineState V, s.node = t.node → Domain.le s (JoinDomain.join s t) = true ∧
      Domain.le t (JoinDomain.join s t) = true ∧
      ∀ u, Domain.le s u = true → Domain.le t u = true → Domain.le (JoinDomain.join s t) u = true) ∧
    (∀ s t : MachineState V, Domain.le s t = true ↔ s.Within t) := by
  refine ⟨PreorderedDomain.le_refl, fun s t => LocatedLattice.le_antisymm, fun s t u => PreorderedDomain.le_trans,
    fun s t hnode => ?_, fun s t => join_comm, fun s t u _ _ => join_assoc s t u, join_self,
    fun s t hnode => ?_, fun s t => le_iff_within⟩
  · constructor
    · rw [Bool.eq_false_iff]
      intro hle
      exact hnode (LocatedLattice.location_of_le hle)
    · rw [Bool.eq_false_iff]
      intro hle
      exact hnode (LocatedLattice.location_of_le hle).symm
  · refine ⟨LocatedLattice.left_le_join hnode, LocatedLattice.right_le_join hnode, fun u hs ht => ?_⟩
    exact LocatedLattice.join_le hnode hs ht

def narrowState : MachineState (Powerset Nat) :=
  ⟨1, ⟨[.singleton 1], [.singleton 2, .singleton 3]⟩, .ofList [("A", .singleton 7)]⟩

/-- Has more variables than the narrow state, a lower stack and another field. -/
def wideState : MachineState (Powerset Nat) :=
  ⟨1, ⟨[.singleton 4, .singleton 5], [.singleton 6]⟩, .ofList [("B", .singleton 8)]⟩

/-- Two states of which neither has all places of the other. -/
theorem semilattice_at_each_node_uneven :
    JoinDomain.join narrowState wideState = ⟨1, ⟨[.ofList [1, 4], .singleton 5], [.singleton 2, .ofList [3, 6]]⟩,
      .ofList [("A", .singleton 7), ("B", .singleton 8)]⟩ ∧
    JoinDomain.join narrowState wideState = JoinDomain.join wideState narrowState ∧
    Domain.le narrowState (JoinDomain.join narrowState wideState) = true ∧
    Domain.le wideState (JoinDomain.join narrowState wideState) = true ∧
    ¬ Domain.le narrowState wideState = true ∧
    Domain.le narrowState { narrowState with node := 2 } = false := by
  obtain ⟨_, _, _, hapart, hcomm, _, _, hleast, hwithin⟩ := semilattice_at_each_node (V := Powerset Nat)
  obtain ⟨hleft, hright, _⟩ := hleast narrowState wideState rfl
  refine ⟨by decide +kernel, hcomm narrowState wideState rfl, hleft, hright, ?_, (hapart _ _ (by decide)).1⟩
  intro hle
  have hheight : 2 ≤ 1 := ((hwithin narrowState wideState).1 hle).height
  omega

end MachineState

end BytecodeFlow
