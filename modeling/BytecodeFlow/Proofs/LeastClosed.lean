import BytecodeFlow.Proofs.ExplorationOrder
import BytecodeFlow.Proofs.LockStep

/-! # The least closed state

Where any two states can be joined, a run that joins from one seed has a single state at any time. It makes no
difference then whether successors are compared with it after joining or always count as covered. Under a monotone
relation such a run ends with the least state that lies above the seed and above all its own successors.
-/
namespace BytecodeFlow

/-- Lattices in which any two states can be joined. -/
class TotalLattice (S : Type) [JoinDomain S] : Prop extends ValueLattice S where
  joinable (a b : S) : JoinDomain.joinable a b = true

/-- All states are at one location. -/
@[reducible] def Located.single (S : Type) : Located S := ⟨fun _ => 0, fun _ s => s⟩

theorem TotalLattice.located (S : Type) [JoinDomain S] [TotalLattice S] :
    @LocatedLattice S _ (Located.single S) :=
  letI := Located.single S
  { le_refl := ValueLattice.le_refl
    le_trans := by
      intro a b c hab hbc
      rw [ValueLattice.le_iff] at hab hbc ⊢
      rw [← hbc, ← ValueLattice.join_assoc, hab]
    le_join_left := by
      intro a b _
      rw [ValueLattice.le_iff, ← ValueLattice.join_assoc, ValueLattice.join_self]
    le_join_right := by
      intro a b _
      rw [ValueLattice.le_iff, ValueLattice.join_comm a b, ← ValueLattice.join_assoc, ValueLattice.join_self]
    le_antisymm := by
      intro a b hab hba
      rw [ValueLattice.le_iff] at hab hba
      rw [← hab, ValueLattice.join_comm, hba]
    location_of_le := fun _ => rfl
    joinable_iff := iff_of_true (TotalLattice.joinable _ _) rfl
    join_le := by
      intro a b c _ hac hbc
      rw [ValueLattice.le_iff] at hac hbc ⊢
      rw [ValueLattice.join_assoc, hbc, hac] }

abbrev Operators.joinAlways {S P : Type} [JoinDomain S] : Operators S P :=
  ⟨mergeJoin, stopAlways, adjustNone⟩

/-! ### One reached state -/

namespace Search

variable {S P : Type} [DecidableEq S] {q : Search (OrderedSet S) S} {p : P} {c r : S}

def Only (q : Search (OrderedSet S) S) (r : S) : Prop :=
  ∀ x, q.Reaches x ↔ x = r

theorem Only.toList_eq (h : q.Only r) : q.reached.toList = [r] := by
  rw [← List.perm_singleton, List.perm_ext_iff_of_nodup q.reached.nodup (List.nodup_singleton r)]
  intro x
  rw [List.mem_singleton]
  exact h x

variable [JoinDomain S] [TotalLattice S]

theorem only_incorporate (h : q.Only r) (p : P) (c : S) :
    (q.incorporate .join p c).Only (JoinDomain.join c r) := by
  let _ := Located.single S
  have _ := TotalLattice.located S
  have hvalid : q.Valid := trivial
  have hsingle : q.Single := fun x y hx hy _ => ((h x).1 hx).trans ((h y).1 hy).symm
  intro x
  cases joins_incorporate hvalid hsingle c p with
  | @covered r' hr' _ hjoin heq =>
    rw [(h r').1 hr'] at hjoin
    rw [heq, h x, hjoin]
  | @raised r' hr' _ _ hreaches _ =>
    obtain rfl := (h r').1 hr'
    rw [hreaches x, h x]
    simp
  | fresh hfresh _ _ => exact absurd rfl (hfresh r ((h r).2 rfl))

omit [JoinDomain S] [TotalLattice S] in
theorem exists_reaches_replace (hr : q.Reaches r) (changes : List (S × S)) : ∃ x, (q.replace changes).Reaches x := by
  by_cases hold : r ∈ changes.map (·.1)
  · obtain ⟨m, hm, -⟩ := List.mem_map.1 hold
    exact ⟨m.2, reaches_replace.2 (.inr (List.mem_map_of_mem hm))⟩
  · exact ⟨r, reaches_replace.2 (.inl ⟨hold, hr⟩)⟩

/-- After joining, the reached state covers the successor, so that nothing is left to decide. -/
theorem incorporate_joinAlways (h : q.Only r) (p : P) (c : S) :
    q.incorporate .joinAlways p c = q.incorporate .join p c := by
  have hone := only_incorporate h p c
  rcases incorporate_cases .join p q c with ⟨_, heq⟩ | ⟨hstop, heq⟩
  · rw [heq]
    rfl
  · -- an admitted successor would be the only reached state, and not covered by it
    rw [heq] at hone
    obtain ⟨x, hx⟩ := exists_reaches_replace ((h r).2 rfl) (q.replacements .join p c)
    have hxc : x = c := ((hone x).1 (reaches_add.2 (.inl hx))).trans ((hone c).1 (reaches_add.2 (.inr rfl))).symm
    have hcovered : Operators.stopSep c (q.replace (q.replacements .join p c)).reached.toList p = true :=
      List.any_eq_true.2 ⟨x, hx, hxc ▸ ValueLattice.le_refl x⟩
    exact absurd (hcovered.symm.trans hstop) (by decide)

theorem incorporateAll_joinAlways (h : q.Only r) (p : P) (l : List S) :
    q.incorporateAll .joinAlways p l = q.incorporateAll .join p l ∧ ∃ x, (q.incorporateAll .join p l).Only x := by
  induction l generalizing q r with
  | nil => exact ⟨rfl, r, h⟩
  | cons c l ih =>
    obtain ⟨heq, hone⟩ := ih (only_incorporate h p c)
    refine ⟨?_, hone⟩
    change incorporateAll _ p (q.incorporate .joinAlways p c) l = _
    rw [incorporate_joinAlways h]
    exact heq

end Search

/-! ### Runs -/

namespace Relation

variable {S P : Type} [DecidableEq S] [JoinDomain S] [TotalLattice S] {T : Relation S P} {p : P}
  {q q' : Search (OrderedSet S) S} {j j' : Journal S P} {o : Outcome} {r s : S}

theorem iterate_joinAlways (h : q.Only r) :
    (T.analysis .joinAlways).iterate p q j = (T.analysis .join).iterate p q j := by
  cases hiterate : (T.analysis .join).iterate p q j with
  | next q' j' =>
    obtain ⟨j₁, x, w, l, hpoll, hpop, hok, rfl⟩ := Analysis.iterate_next hiterate
    have hpopped : Search.Only ⟨q.reached, w⟩ r := h
    apply (Analysis.iterate_of_ok (A := T.analysis .joinAlways) hpoll hpop hok).trans
    exact congrArg (Iteration.next · j') (Search.incorporateAll_joinAlways hpopped p l).1
  | stop o q' j' =>
    rcases Analysis.iterate_stop hiterate with ⟨rfl, rfl, hpoll⟩ | ⟨rfl, rfl, hpoll, hpop⟩ |
      ⟨_, x, w, f, rfl, hpoll, hpop, herror, rfl⟩
    · exact Analysis.iterate_of_fires hpoll
    · exact Analysis.iterate_of_empty hpoll hpop
    · exact Analysis.iterate_of_error hpoll hpop herror

theorem only_next (h : q.Only r) (hnext : (T.analysis .join).iterate p q j = .next q' j') : ∃ x, q'.Only x := by
  obtain ⟨_, x, w, l, _, _, _, rfl⟩ := Analysis.iterate_next hnext
  have hpopped : Search.Only ⟨q.reached, w⟩ r := h
  exact (Search.incorporateAll_joinAlways hpopped p l).2

/-- Whether successors are compared or always count as covered, the run is the same. -/
theorem run_joinAlways (h : q.Only r) (fuel : Nat) :
    (T.analysis .joinAlways).run p fuel q j = (T.analysis .join).run p fuel q j := by
  induction fuel generalizing q j r with
  | zero => rfl
  | succ fuel ih =>
    cases hiterate : (T.analysis .join).iterate p q j with
    | stop o q' j' =>
      rw [Analysis.run_succ_of_stop hiterate, Analysis.run_succ_of_stop ((iterate_joinAlways h).trans hiterate)]
    | next q' j' =>
      obtain ⟨x, hx⟩ := only_next h hiterate
      rw [Analysis.run_succ_of_next hiterate, Analysis.run_succ_of_next ((iterate_joinAlways h).trans hiterate), ih hx]

theorem only_of_run (h : q.Only r) {fuel : Nat} (hrun : (T.analysis .join).run p fuel q j = (o, q', j')) :
    ∃ x, q'.Only x := by
  obtain ⟨q₁, _, ⟨x, hx⟩, heq⟩ := Analysis.run_reached (fun q _ => ∃ r, q.Only r)
    (fun _ _ _ _ ⟨_, h⟩ hnext => only_next h hnext) hrun ⟨r, h⟩
  refine ⟨x, fun y => ?_⟩
  rw [← hx y]
  unfold Search.Reaches
  rw [heq]

/-- The state lies above the seed and above all its successors. -/
structure ClosedAbove (T : Relation S P) (p : P) (s x : S) : Prop where
  seed : Domain.le s x = true
  closed : ∀ c, T.Steps p x c → Domain.le c x = true

/-- The state at which a run from one seed completes has successors, and lies above the seed and above them. Every
other such state lies above it. -/
theorem least_of_completed {x : S} (h₀ : q.Seeded s) (hmono : T.Monotone p) {fuel : Nat}
    (hrun : (T.analysis .join).run p fuel q j = (.completed, q', j')) (hx : q'.Only x) :
    T.ClosedAbove p s x ∧ (∃ l, T x p = .ok l) ∧ ∀ y, T.ClosedAbove p s y → Domain.le x y = true := by
  let _ := Located.single S
  have _ := TotalLattice.located S
  obtain ⟨hfamily, hok, hleast⟩ := least_of_ends hmono h₀ (.inl ⟨fuel, j, j', hrun⟩)
  have hreached : q'.Reaches x := (hx x).2 rfl
  have hbelow : ∀ c, q'.Covers c → Domain.le c x = true := by
    rintro c ⟨r, hr, hle⟩
    rwa [(hx r).1 hr] at hle
  refine ⟨⟨hbelow s hfamily.seed, fun c hc => hbelow c (hfamily.closed x hreached c hc)⟩, hok x hreached, ?_⟩
  intro y hy
  have hsingle : T.Family p s (· = y) :=
    ⟨fun _ _ hx hx' _ => hx.trans hx'.symm, ⟨y, rfl, hy.seed⟩, by
      rintro _ rfl c hc
      exact ⟨_, rfl, hy.closed c hc⟩⟩
  obtain ⟨_, rfl, hle⟩ := hleast _ hsingle x hreached
  exact hle

/-- A run that joins from one seed goes on in the same way, iteration by iteration, whether successors are compared or
always count as covered, and has exactly one reached state at any time. If it completes under a monotone relation, this
is the least state above the seed and above its own successors. -/
theorem joinAlways_reaches_least {q₀ : Search (OrderedSet S) S} (T : Relation S P) (p : P) (h₀ : q₀.Seeded s)
    {fuel : Nat} (hrun : (T.analysis .joinAlways).run p fuel q₀ j = (o, q, j')) :
    (T.analysis .join).run p fuel q₀ j = (o, q, j') ∧
    ∃ x, q.reached.toList = [x] ∧
      (T.Monotone p → o = .completed →
        T.ClosedAbove p s x ∧ (∃ l, T x p = .ok l) ∧ ∀ y, T.ClosedAbove p s y → Domain.le x y = true) := by
  have hjoin : (T.analysis .join).run p fuel q₀ j = (o, q, j') := (run_joinAlways h₀.reaches fuel).symm.trans hrun
  obtain ⟨x, hx⟩ := only_of_run h₀.reaches hjoin
  refine ⟨hjoin, x, hx.toList_eq, ?_⟩
  rintro hmono rfl
  exact least_of_completed h₀ hmono hjoin hx

end Relation

/-! ### Counters with a ceiling -/

instance : TotalLattice Counter where
  join_assoc a b c := congrArg Counter.mk (Int.max_assoc a.value b.value c.value)
  join_comm a b := congrArg Counter.mk (Int.max_comm a.value b.value)
  join_self a := congrArg Counter.mk (Int.max_self a.value)
  le_iff a b := by
    change decide (a.value ≤ b.value) = true ↔ Counter.mk (max a.value b.value) = b
    cases b
    simp
  joinable _ _ := rfl

namespace Relation

/-- Counters that climb by two until they are at ten, and stay there. -/
def rising : Relation Counter Unit :=
  Rules.relation ⟨none, [], [fun s => some ⟨min (s.value + 2) 10⟩]⟩

theorem steps_rising {s c : Counter} : rising.Steps () s c ↔ c = ⟨min (s.value + 2) 10⟩ := by
  simp [Steps, rising, Rules.relation]

theorem monotone_rising : rising.Monotone () := by
  intro s t hst c hc
  rw [steps_rising] at hc
  refine ⟨_, steps_rising.2 rfl, ?_⟩
  have hvalue : s.value ≤ t.value := of_decide_eq_true hst
  rw [hc]
  apply decide_eq_true
  change min (s.value + 2) 10 ≤ min (t.value + 2) 10
  omega

def risingStart : Search (OrderedSet Counter) Counter :=
  Search.add ⟨.empty, .empty .depthFirst⟩ ⟨0⟩

theorem joinAlways_reaches_least_rising :
    ∃ q j', (rising.analysis .joinAlways).run () 10 risingStart ⟨.never, []⟩ = (.completed, q, j') ∧
      (rising.analysis .join).run () 10 risingStart ⟨.never, []⟩ = (.completed, q, j') ∧
      q.reached.toList = [⟨10⟩] ∧ ∀ y, rising.ClosedAbove () ⟨0⟩ y → Domain.le ⟨10⟩ y = true := by
  have hstart : risingStart.Seeded ⟨0⟩ := by
    apply Search.seeded_add
    · trivial
    · exact OrderedSet.not_mem_empty
    · exact OrderedSet.not_mem_empty
  have hrun : (rising.analysis .joinAlways).run () 10 risingStart ⟨.never, []⟩ = (.completed, _, _) := rfl
  obtain ⟨hjoin, x, hx, hleast⟩ := joinAlways_reaches_least rising () hstart hrun
  obtain rfl : ⟨10⟩ = x := List.singleton_inj.1 hx
  exact ⟨_, _, hrun, hjoin, hx, (hleast monotone_rising rfl).2.2⟩

end Relation

end BytecodeFlow
