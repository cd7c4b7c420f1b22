import BytecodeFlow.Proofs.Coverage
import BytecodeFlow.Proofs.Lattice

/-! # Joining states at one location

If exactly the states at one location can be joined, and joining gives their least upper bound, then a search
that joins unites the states at each location. A successor is therefore covered by the state at its location,
or raises that state to their join, or is the first one there. All that is proved about searches that join goes
through this case distinction.
-/
namespace BytecodeFlow

/-- Domains that fall into the locations of their states, each of which is a join semilattice. -/
class LocatedLattice (S : Type) [JoinDomain S] [Located S] : Prop extends LawfulJoinDomain S where
  le_antisymm {a b : S} : Domain.le a b = true → Domain.le b a = true → a = b
  location_of_le {a b : S} : Domain.le a b = true → location a = location b
  joinable_iff {a b : S} : JoinDomain.joinable a b = true ↔ location a = location b
  join_le {a b c : S} : location a = location b → Domain.le a c = true → Domain.le b c = true →
    Domain.le (JoinDomain.join a b) c = true

instance {V : Type} [JoinDomain V] [DecidableEq V] [ValueLattice V] : LocatedLattice (MachineState V) where
  le_antisymm {s t} hst hts := by
    rw [MachineState.le_iff] at hst hts
    rw [← hst.2, MachineState.join_comm hst.1, hts.2]
  location_of_le h := (MachineState.le_iff.1 h).1
  joinable_iff := MachineState.joinable_iff
  join_le {s t u} _ hsu htu := by
    rw [MachineState.le_iff] at hsu htu ⊢
    refine ⟨hsu.1, ?_⟩
    change (s.join t).join u = u
    rw [MachineState.join_assoc, htu.2, hsu.2]

namespace LocatedLattice

variable {S : Type} [JoinDomain S] [Located S] [LocatedLattice S] {a b c : S}

theorem left_le_join (h : location a = location b) : Domain.le a (JoinDomain.join a b) = true :=
  LawfulJoinDomain.le_join_left (joinable_iff.2 h)

theorem right_le_join (h : location a = location b) : Domain.le b (JoinDomain.join a b) = true :=
  LawfulJoinDomain.le_join_right (joinable_iff.2 h)

theorem location_join (h : location a = location b) : location (JoinDomain.join a b) = location a :=
  (location_of_le (left_le_join h)).symm

theorem join_self (a : S) : JoinDomain.join a a = a := by
  apply le_antisymm
  · exact join_le rfl (PreorderedDomain.le_refl a) (PreorderedDomain.le_refl a)
  · exact left_le_join rfl

theorem join_le_iff (h : location a = location b) :
    Domain.le (JoinDomain.join a b) c = true ↔ Domain.le a c = true ∧ Domain.le b c = true := by
  constructor
  · intro hc
    exact ⟨PreorderedDomain.le_trans (left_le_join h) hc, PreorderedDomain.le_trans (right_le_join h) hc⟩
  · rintro ⟨hac, hbc⟩
    exact join_le h hac hbc

end LocatedLattice

/-- Joining unites the states at one location. -/
theorem Operators.uniting_join {R S P : Type} [ReachedSet R S] [LawfulReachedSet R S] [DecidableEq S] [JoinDomain S]
    [Located S] [LocatedLattice S] [ComparesLocally R S] : (Operators.join : Operators S P).Uniting R := by
  have hmerge : ∀ {c r : S} (p : P), location c = location r →
      (Operators.join : Operators S P).merge c r p = JoinDomain.join c r :=
    fun p hloc => if_pos (LocatedLattice.joinable_iff.2 hloc)
  constructor
  · intro c r p hloc
    rw [hmerge p hloc, LocatedLattice.location_join hloc, hloc]
  · intro reached c r p _ _ hloc
    exact if_neg (mt LocatedLattice.joinable_iff.1 hloc)
  · intro reached c r p hv hloc honly
    obtain ⟨hmem, hwhere⟩ := (honly _).2 rfl
    have hcomparable := ComparesLocally.mem_comparable hv hmem hwhere
    rw [hmerge p hloc] at hcomparable
    exact List.any_eq_true.2 ⟨_, hcomparable, LocatedLattice.left_le_join hloc⟩

namespace Search

variable {R S P : Type} [ReachedSet R S] [LawfulReachedSet R S] [DecidableEq S] [JoinDomain S] [Located S]
  {q q' : Search R S} {c x : S} {p : P}

/-- What becomes of a search when a successor is joined to it. -/
inductive Joins (q : Search R S) (c : S) (q' : Search R S) : Prop
  /-- The state at the location covers the successor. -/
  | covered {r : S} : q.Reaches r → location c = location r → JoinDomain.join c r = r → q' = q → Joins q c q'
  /-- The state at the location gives way to a larger one, which is pending. -/
  | raised {r : S} : q.Reaches r → location c = location r → JoinDomain.join c r ≠ r →
    (∀ x, q'.Reaches x ↔ (x ≠ r ∧ q.Reaches x) ∨ x = JoinDomain.join c r) →
    (∀ x, q'.Awaits x ↔ (x ≠ r ∧ q.Awaits x) ∨ x = JoinDomain.join c r) → Joins q c q'
  /-- The location had no state, and the successor is pending. -/
  | fresh : (∀ r, q.Reaches r → location c ≠ location r) → (∀ x, q'.Reaches x ↔ q.Reaches x ∨ x = c) →
    (∀ x, q'.Awaits x ↔ q.Awaits x ∨ x = c) → Joins q c q'

variable [LocatedLattice S]

variable [ComparesLocally R S]

theorem joins_incorporate (hv : q.Valid) (hs : q.Single) (c : S) (p : P) :
    q.Joins c (q.incorporate .join p c) := by
  have hjoin : ∀ {r : S}, location c = location r →
      (Operators.join : Operators S P).merge c r p = JoinDomain.join c r := fun hloc =>
    if_pos (LocatedLattice.joinable_iff.2 hloc)
  cases unites_incorporate Operators.uniting_join hv hs c p with
  | covered hr hloc hmerge heq => exact .covered hr hloc ((hjoin hloc).symm.trans hmerge) heq
  | raised hr hloc hmerge hreaches hawaits =>
    rw [hjoin hloc] at hmerge hreaches hawaits
    exact .raised hr hloc hmerge hreaches hawaits
  | fresh hfresh heq =>
    rw [heq]
    exact .fresh hfresh (fun x => reaches_add) (fun x => awaits_add)
  | dropped hfresh hstop _ =>
    obtain ⟨r, hr, hle⟩ := Operators.covered_of_stopSep p hstop
    exact absurd (LocatedLattice.location_of_le hle) (hfresh r (LawfulReachedSet.mem_of_comparable hv hr))

end Search

end BytecodeFlow
