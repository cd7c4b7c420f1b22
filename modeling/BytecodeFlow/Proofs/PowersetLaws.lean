import BytecodeFlow.Proofs.Lattice
import Mathlib.Data.Set.Card

/-! # Laws of powersets

However a set is built, it lists its members once each and in ascending order, so that two sets are equal as soon as
they have the same members. Joining by inserting the smaller set into the larger one is therefore a union with all
its laws, and the inclusion that compares sizes first is the order of this union.
-/
namespace BytecodeFlow

/-- How a set is built. -/
inductive SetExpression (α : Type) where
  | bottom
  | singleton (a : α)
  | ofList (l : List α)
  | add (e : SetExpression α) (a : α)
  | join (e f : SetExpression α)
  deriving DecidableEq, Repr

namespace SetExpression

variable {α : Type}

/-- The members that the set ought to have. -/
def Denotes : SetExpression α → α → Prop
  | bottom, _ => False
  | singleton a, x => x = a
  | ofList l, x => x ∈ l
  | add e a, x => x = a ∨ e.Denotes x
  | join e f, x => e.Denotes x ∨ f.Denotes x

variable [Ord α] [Std.TransOrd α]

def value : SetExpression α → Powerset α
  | bottom => .empty
  | singleton a => .singleton a
  | ofList l => .ofList l
  | add e a => e.value.insert a
  | join e f => e.value.union f.value

variable [Std.LawfulEqOrd α]

theorem mem_value (e : SetExpression α) (x : α) : x ∈ e.value ↔ e.Denotes x := by
  induction e with
  | bottom => simp [value, Denotes]
  | singleton a => exact List.mem_singleton
  | ofList l =>
    change x ∈ l.foldl Powerset.insert .empty ↔ x ∈ l
    simp [Powerset.mem_foldl_insert]
  | add e a ih => simp [value, Denotes, ih]
  | join e f ihe ihf => simp [value, Denotes, Powerset.mem_union, ihe, ihf]

end SetExpression

namespace Powerset

variable {α : Type} [Ord α] [Std.TransOrd α]

/-- The size counts the members. -/
theorem size_eq_ncard (s : Powerset α) : s.size = {x | x ∈ s}.ncard := by
  classical
  have hmembers : {x | x ∈ s} = (s.elements.toFinset : Set α) := by
    ext x
    rw [List.coe_toFinset]
    rfl
  rw [hmembers, Set.ncard_coe_finset, List.toFinset_card_of_nodup s.nodup_elements]
  rfl

/-- A set lists its members in the only possible ascending order. -/
theorem elements_eq {s : Powerset α} {l : List α} (hl : l.Pairwise fun a b => compare a b = .lt)
    (h : ∀ x, x ∈ l ↔ x ∈ s) : s.elements = l :=
  eq_of_ascending id s.ascending hl fun x => (h x).symm

variable [Std.LawfulEqOrd α] {s t u : Powerset α}

theorem empty_union (s : Powerset α) : empty.union s = s :=
  ext_mem fun x => by simp [mem_union]

theorem subset_refl (s : Powerset α) : s.subset s = true := subset_iff.2 fun _ hx => hx

theorem subset_trans (h : s.subset t = true) (h' : t.subset u = true) : s.subset u = true :=
  subset_iff.2 fun x hx => subset_iff.1 h' x (subset_iff.1 h x hx)

theorem subset_antisymm (h : s.subset t = true) (h' : t.subset s = true) : s = t :=
  ext_mem fun x => ⟨subset_iff.1 h x, subset_iff.1 h' x⟩

/-- The join has exactly the members of both sets, and is associative, commutative and idempotent with the empty set as
its neutral element. Inclusion holds exactly if all members are shared, or if the join adds nothing, and is a partial
order. A set that is built in any way lists the members that it ought to have in the only ascending order, and its size
counts them; two sets that are built are equal exactly if they ought to have the same members. -/
theorem set_domain_exact (s t u : Powerset α) :
    (∀ x, x ∈ s.union t ↔ x ∈ s ∨ x ∈ t) ∧
    s.union t = t.union s ∧ (s.union t).union u = s.union (t.union u) ∧ s.union s = s ∧
    empty.union s = s ∧ s.union empty = s ∧
    (s.subset t = true ↔ ∀ x ∈ s, x ∈ t) ∧ (s.subset t = true ↔ s.union t = t) ∧
    s.subset s = true ∧ (s.subset t = true → t.subset u = true → s.subset u = true) ∧
    (s.subset t = true → t.subset s = true → s = t) ∧
    (∀ e : SetExpression α, e.value.elements.Pairwise (fun a b => compare a b = .lt) ∧
      (∀ x, x ∈ e.value.elements ↔ e.Denotes x) ∧ (∀ x, e.value.contains x = true ↔ e.Denotes x) ∧
      (∀ l : List α, l.Pairwise (fun a b => compare a b = .lt) → (∀ x, x ∈ l ↔ e.Denotes x) → e.value.elements = l) ∧
      e.value.size = e.value.elements.length ∧ e.value.size = {x | e.Denotes x}.ncard) ∧
    ∀ e f : SetExpression α, e.value = f.value ↔ ∀ x, e.Denotes x ↔ f.Denotes x := by
  have hcomm : s.union t = t.union s := ValueLattice.join_comm s t
  have hneutral : s.union empty = s := (ValueLattice.join_comm s empty).trans (empty_union s)
  refine ⟨fun x => mem_union, hcomm, ValueLattice.join_assoc s t u, ValueLattice.join_self s, empty_union s, hneutral,
    subset_iff, ValueLattice.le_iff s t, subset_refl s, subset_trans, subset_antisymm, fun e => ?_, fun e f => ?_⟩
  · have hmembers : {x | x ∈ e.value} = {x | e.Denotes x} := Set.ext e.mem_value
    refine ⟨e.value.ascending, e.mem_value, fun x => contains_iff.trans (e.mem_value x), fun l hl hmem => ?_, rfl,
      hmembers ▸ e.value.size_eq_ncard⟩
    exact elements_eq hl fun x => (hmem x).trans (e.mem_value x).symm
  · constructor
    · intro h x
      rw [← e.mem_value, ← f.mem_value, h]
    · intro h
      exact ext_mem fun x => (e.mem_value x).trans ((h x).trans (f.mem_value x).symm)

/-- Three numbers and a fourth one, added in two orders. -/
theorem set_domain_exact_numbers :
    (ofList [3, 1, 2]).union (singleton 7) = (singleton 7).union (ofList [(3 : Nat), 1, 2]) ∧
      ((singleton 7).subset (ofList [3, 1, 2]) = true ↔ ∀ x ∈ singleton (7 : Nat), x ∈ ofList [3, 1, 2]) ∧
      (SetExpression.join (.add (.ofList [2, 1]) 3) (.singleton (7 : Nat))).value.elements = [1, 2, 3, 7] := by
  obtain ⟨_, hcomm, _⟩ := set_domain_exact (ofList [(3 : Nat), 1, 2]) (singleton 7) empty
  obtain ⟨_, _, _, _, _, _, hsubset, _, _, _, _, hbuilt, _⟩ :=
    set_domain_exact (singleton (7 : Nat)) (ofList [3, 1, 2]) empty
  obtain ⟨_, _, _, hlisted, _⟩ := hbuilt (.join (.add (.ofList [2, 1]) 3) (.singleton 7))
  refine ⟨hcomm, hsubset, hlisted [1, 2, 3, 7] (by decide) fun x => ?_⟩
  simp only [SetExpression.Denotes, List.mem_cons, List.not_mem_nil, or_false]
  omega

end Powerset

end BytecodeFlow
