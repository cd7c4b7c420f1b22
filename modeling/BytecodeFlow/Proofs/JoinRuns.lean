import BytecodeFlow.Proofs.CachedRuns
import BytecodeFlow.Proofs.Callers
import BytecodeFlow.Proofs.LocatedJoin
import Mathlib.Data.List.Induction

/-! # Runs that join

A run is followed from one successor to the next. While states are joined, the state at a location is at any
time the join of all states that were there at the start or have been found for it since, and it only gives way
to strictly larger ones. A cached block has therefore one state at most at each node, its exit included.
-/
namespace BytecodeFlow

/-- A point of a run at which the next successor is to be incorporated, or the next state to be explored. -/
structure Moment (σ R S P : Type) where
  /-- The successors that have been incorporated so far. -/
  seen : List S
  search : Search R S
  /-- The successors of the explored state that are still to be incorporated, with the precision for them. -/
  rest : List S
  precision : P
  state : σ

def Moment.start {σ R S P : Type} (q : Search R S) (p : P) (s : σ) : Moment σ R S P := ⟨[], q, [], p, s⟩

namespace Analysis

variable {σ R S P : Type} [ReachedSet R S] [DecidableEq S] {A : Analysis σ S P} {p : P}
  {q₀ q q' : Search R S} {s₀ s s' : σ} {o : Outcome} {fuel : Nat}

inductive Passes (A : Analysis σ S P) (p : P) : Moment σ R S P → Moment σ R S P → Prop
  | explore {seen l : List S} {q : Search R S} {p' : P} {s s₁ s' : σ} {x : S} {w : Waitlist S} :
    A.poll s = (false, s₁) → q.waiting.pop? = some (x, w) →
    A.transfer (A.adjusted p q x).1 (A.adjusted p q x).2 s₁ = .ok l s' →
    Passes A p ⟨seen, q, [], p', s⟩ ⟨seen, ⟨q.reached, w⟩, l, (A.adjusted p q x).2, s'⟩
  | incorporate {seen rest : List S} {q : Search R S} {c : S} {p' : P} {s : σ} :
    Passes A p ⟨seen, q, c :: rest, p', s⟩ ⟨seen ++ [c], q.incorporate A.operators p' c, rest, p', s⟩

def During (A : Analysis σ S P) (p : P) (q₀ : Search R S) (s₀ : σ) (m : Moment σ R S P) : Prop :=
  Relation.ReflTransGen (A.Passes p) (.start q₀ p s₀) m

theorem During.incorporateAll {seen l : List S} {p' : P} (h : A.During p q₀ s₀ ⟨seen, q, l, p', s⟩) :
    A.During p q₀ s₀ ⟨seen ++ l, q.incorporateAll A.operators p' l, [], p', s⟩ := by
  induction l generalizing seen q with
  | nil =>
    rw [List.append_nil]
    exact h
  | cons c l ih =>
    rw [List.append_cons]
    exact ih (h.tail .incorporate)

/-- An iteration is a sequence of moments. -/
theorem During.next {seen : List S} {p' : P} (h : A.During p q₀ s₀ ⟨seen, q, [], p', s⟩)
    (hnext : A.iterate p q s = .next q' s') : ∃ seen p', A.During p q₀ s₀ ⟨seen, q', [], p', s'⟩ := by
  obtain ⟨_, x, w, l, hpoll, hpop, hok, rfl⟩ := iterate_next hnext
  exact ⟨_, _, During.incorporateAll (h.tail (.explore hpoll hpop hok))⟩

theorem during_start : A.During p q s (.start q p s) := .refl

theorem during_head {n : Nat} (h : A.head p n q s = some (q', s')) :
    ∃ seen p', A.During p q s ⟨seen, q', [], p', s'⟩ :=
  head_invariant (fun q' s' => ∃ seen p', A.During p q s ⟨seen, q', [], p', s'⟩)
    (fun _ _ _ _ ⟨_, _, h⟩ hnext => h.next hnext) h ⟨[], p, during_start⟩

/-- However a run ends, its reached states are those of one of its moments, at which all successors that were found
have been incorporated. -/
theorem during_of_run (hrun : A.run p fuel q s = (o, q', s')) :
    ∃ m, A.During p q s m ∧ m.rest = [] ∧ q'.reached = m.search.reached := by
  obtain ⟨_, _, _, hhead, heq⟩ := head_of_run hrun
  obtain ⟨_, _, h⟩ := during_head hhead
  exact ⟨_, h, rfl, heq⟩

theorem during_of_completed (hrun : A.run p fuel q s = (.completed, q', s')) :
    ∃ m, A.During p q s m ∧ m.rest = [] ∧ m.search = q' ∧ ∀ x, ¬ q'.Awaits x := by
  obtain ⟨_, _, hhead, _, hnone⟩ := head_of_completed hrun
  obtain ⟨_, _, h⟩ := during_head hhead
  exact ⟨_, h, rfl, rfl, hnone⟩

end Analysis

/-! ### The join at a location -/

section JoinAt

variable {S : Type} [JoinDomain S] [Located S] {n : NodeId} {l : List S} {c x : S}

def joinAt (n : NodeId) (l : List S) : Option S :=
  l.foldl (fun acc c => if location c = n then joinOption (some c) acc else acc) none

theorem joinAt_concat :
    joinAt n (l ++ [c]) = if location c = n then joinOption (some c) (joinAt n l) else joinAt n l := by
  simp [joinAt, List.foldl_append]

variable [LocatedLattice S]

theorem location_joinAt (h : joinAt n l = some x) : location x = n := by
  induction l using List.reverseRecOn generalizing x with
  | nil => cases h
  | append_singleton l c ih =>
    rw [joinAt_concat] at h
    split at h
    · rename_i hc
      cases hr : joinAt n l with
      | none =>
        rw [hr] at h
        obtain rfl := Option.some.inj h
        exact hc
      | some r =>
        rw [hr] at h
        obtain rfl := Option.some.inj h
        rw [LocatedLattice.location_join (hc.trans (ih hr).symm), hc]
    · exact ih h

theorem forall_joinAt_le_iff {z : S} :
    (∀ x, joinAt n l = some x → Domain.le x z = true) ↔
      ∀ y ∈ l, location y = n → Domain.le y z = true := by
  induction l using List.reverseRecOn with
  | nil => simp [joinAt]
  | append_singleton l c ih =>
    rw [joinAt_concat]
    simp only [List.forall_mem_append, List.forall_mem_singleton, ← ih]
    by_cases hc : location c = n
    · simp only [hc, if_true, forall_const]
      cases hr : joinAt n l with
      | none => simp
      | some r =>
        have hloc : location c = location r := hc.trans (location_joinAt hr).symm
        simp [LocatedLattice.join_le_iff hloc, and_comm]
    · simp [hc]

/-- The join at a location is the least upper bound of the states there. -/
theorem le_iff_of_joinAt (h : joinAt n l = some x) {z : S} :
    Domain.le x z = true ↔ ∀ y ∈ l, location y = n → Domain.le y z = true := by
  rw [← forall_joinAt_le_iff]
  simp [h]

/-- States of which no two different ones are at a location are their own joins. -/
theorem joinAt_eq_some_iff (h : ∀ x ∈ l, ∀ y ∈ l, location x = location y → x = y) :
    joinAt n l = some x ↔ x ∈ l ∧ location x = n := by
  induction l using List.reverseRecOn generalizing x with
  | nil => simp [joinAt]
  | append_singleton l c ih =>
    have hl : ∀ x ∈ l, ∀ y ∈ l, location x = location y → x = y := fun x hx y hy =>
      h x (List.mem_append_left _ hx) y (List.mem_append_left _ hy)
    rw [joinAt_concat, List.mem_append, List.mem_singleton]
    by_cases hc : location c = n
    · have honly : x ∈ l → location x = n → x = c := fun hx hloc =>
        h x (List.mem_append_left _ hx) c (by simp) (hloc.trans hc.symm)
      have hjoin : joinOption (some c) (joinAt n l) = some c := by
        cases hr : joinAt n l with
        | none => rfl
        | some r =>
          obtain ⟨hmem, hloc⟩ := (ih hl).1 hr
          obtain rfl : r = c := h r (List.mem_append_left _ hmem) c (by simp) (hloc.trans hc.symm)
          rw [joinOption_some, LocatedLattice.join_self]
      rw [if_pos hc, hjoin, Option.some_inj]
      constructor
      · rintro rfl
        exact ⟨.inr rfl, hc⟩
      · rintro ⟨hx | rfl, hloc⟩
        · exact (honly hx hloc).symm
        · rfl
    · rw [if_neg hc, ih hl]
      constructor
      · exact fun hx => ⟨.inl hx.1, hx.2⟩
      · rintro ⟨hx | rfl, hloc⟩
        · exact ⟨hx, hloc⟩
        · exact absurd hloc hc

end JoinAt

namespace Search

variable {R S P : Type} [ReachedSet R S] [JoinDomain S] [Located S] {q q' : Search R S} {l : List S}
  {n : NodeId} {o : Option S} {c x : S}

/-- This is the only reached state at the location, or there is none. -/
def At (q : Search R S) (n : NodeId) (o : Option S) : Prop :=
  ∀ x, o = some x ↔ q.Reaches x ∧ location x = n

/-- The reached states are the joins of these states at their locations. -/
def Joined (q : Search R S) (l : List S) : Prop :=
  ∀ n, q.At n (joinAt n l)

theorem Joined.single (h : q.Joined l) : q.Single := by
  intro x y hx hy hloc
  have hjoin := (h (location y) x).2 ⟨hx, hloc⟩
  exact Option.some.inj (hjoin.symm.trans ((h (location y) y).2 ⟨hy, rfl⟩))

variable [LocatedLattice S]

/-- A successor does not change what is reached elsewhere. -/
theorem Joins.at_other (h : q.Joins c q') (hn : location c ≠ n) (ho : q.At n o) : q'.At n o := by
  intro x
  rw [ho x]
  cases h with
  | covered _ _ _ heq => rw [heq]
  | @raised r _ hloc _ hreaches _ =>
    rw [hreaches]
    constructor
    · rintro ⟨hx, hxn⟩
      have hxr : x ≠ r := by
        rintro rfl
        exact hn (hloc.trans hxn)
      exact ⟨.inl ⟨hxr, hx⟩, hxn⟩
    · rintro ⟨⟨_, hx⟩ | rfl, hxn⟩
      · exact ⟨hx, hxn⟩
      · exact absurd ((LocatedLattice.location_join hloc).symm.trans hxn) hn
  | fresh _ hreaches _ =>
    rw [hreaches]
    constructor
    · rintro ⟨hx, hxn⟩
      exact ⟨.inl hx, hxn⟩
    · rintro ⟨hx | rfl, hxn⟩
      · exact ⟨hx, hxn⟩
      · exact absurd hxn hn

/-- A successor is joined with what is reached at its location. -/
theorem Joins.at_location (h : q.Joins c q') (ho : q.At (location c) o) :
    q'.At (location c) (joinOption (some c) o) := by
  intro x
  cases h with
  | @covered r hr hloc hjoin heq =>
    have hor : o = some r := (ho r).2 ⟨hr, hloc.symm⟩
    rw [heq, ← ho x, hor, joinOption_some, hjoin]
  | @raised r hr hloc _ hreaches _ =>
    have hor : o = some r := (ho r).2 ⟨hr, hloc.symm⟩
    rw [hor, joinOption_some, Option.some_inj, hreaches]
    constructor
    · rintro rfl
      exact ⟨.inr rfl, LocatedLattice.location_join hloc⟩
    · rintro ⟨⟨hxr, hx⟩ | rfl, hxc⟩
      · -- the state at the location has been replaced
        rw [hor] at ho
        exact absurd (Option.some.inj ((ho x).2 ⟨hx, hxc⟩)).symm hxr
      · rfl
  | fresh hfresh hreaches _ =>
    have hnone : o = none := by
      rw [Option.eq_none_iff_forall_ne_some]
      intro r hr
      obtain ⟨hr, hloc⟩ := (ho r).1 hr
      exact hfresh r hr hloc.symm
    rw [hnone, joinOption_none_right, Option.some_inj, hreaches]
    constructor
    · rintro rfl
      exact ⟨.inr rfl, rfl⟩
    · rintro ⟨hx | rfl, hxc⟩
      · exact absurd hxc.symm (hfresh x hx)
      · rfl

/-- Joining a successor to a search adds it to the states whose joins are reached. -/
theorem Joined.joins (h : q.Joined l) (hjoins : q.Joins c q') : q'.Joined (l ++ [c]) := by
  intro n
  rw [joinAt_concat]
  split
  · rename_i hn
    subst hn
    exact hjoins.at_location (h _)
  · rename_i hn
    exact hjoins.at_other hn (h n)

/-- The state at a location stays, or a strictly larger one takes its place. -/
theorem Joins.raises (h : q.Joins c q') (hx : q.Reaches x) :
    ∃ y, q'.Reaches y ∧ location y = location x ∧
      (y = x ∨ Domain.le x y = true ∧ Domain.le y x = false) := by
  cases h with
  | covered _ _ _ heq =>
    rw [heq]
    exact ⟨x, hx, rfl, .inl rfl⟩
  | @raised r hr hloc hne hreaches _ =>
    by_cases hxr : x = r
    · subst hxr
      have hle := LocatedLattice.right_le_join hloc
      refine ⟨JoinDomain.join c x, (hreaches _).2 (.inr rfl), (LocatedLattice.location_of_le hle).symm,
        .inr ⟨hle, ?_⟩⟩
      rw [Bool.eq_false_iff]
      exact fun hge => hne (LocatedLattice.le_antisymm hge hle)
    · exact ⟨x, (hreaches x).2 (.inl ⟨hxr, hx⟩), rfl, .inl rfl⟩
  | fresh _ hreaches _ => exact ⟨x, (hreaches x).2 (.inl hx), rfl, .inl rfl⟩

end Search

/-! ### Runs -/

namespace Analysis

variable {σ R S P : Type} [ReachedSet R S] [LawfulReachedSet R S] [DecidableEq S] [JoinDomain S] [Located S]
  [LocatedLattice S] [ComparesLocally R S] {A : Analysis σ S P} {p : P} {q₀ : Search R S} {s₀ : σ}
  {m m' : Moment σ R S P}

/-- At every moment of a run that joins, the reached states are the joins of those at the start and of the
successors so far. -/
theorem During.joined (hO : A.operators = .join) (hv : q₀.Valid) (hs : q₀.Single) (h : A.During p q₀ s₀ m) :
    m.search.Valid ∧ m.search.Joined (ReachedSet.states q₀.reached ++ m.seen) := by
  induction h with
  | refl =>
    refine ⟨hv, fun n x => ?_⟩
    change joinAt n (ReachedSet.states q₀.reached ++ []) = some x ↔ _
    rw [List.append_nil, joinAt_eq_some_iff fun x hx y hy => hs x y hx hy]
    rfl
  | tail _ hpasses ih =>
    cases hpasses with
    | explore => exact ih
    | incorporate =>
      rw [hO, ← List.append_assoc]
      exact ⟨Search.valid_incorporate _ _ _ ih.1, ih.2.joins (Search.joins_incorporate ih.1 ih.2.single _ _)⟩

/-- From one moment to the next a state changes only to a strictly larger one. -/
theorem During.raises (hO : A.operators = .join) (hv : q₀.Valid) (hs : q₀.Single) (h : A.During p q₀ s₀ m)
    (hpasses : A.Passes p m m') {x : S} (hx : m.search.Reaches x) :
    ∃ y, m'.search.Reaches y ∧ location y = location x ∧
      (y = x ∨ Domain.le x y = true ∧ Domain.le y x = false) := by
  obtain ⟨hvalid, hjoined⟩ := h.joined hO hv hs
  cases hpasses with
  | explore => exact ⟨x, hx, rfl, .inl rfl⟩
  | incorporate =>
    rw [hO]
    exact (Search.joins_incorporate hvalid hjoined.single _ _).raises hx

end Analysis

/-! ### Blocks -/

namespace Interprocedural

variable {S P : Type} [DecidableEq S] [DecidableEq P] [Located S] [JoinDomain S] [LocatedLattice S]
  {A : Interprocedural S P} {m : Method} {k : S} {p : P} {b : Block S}

omit [LocatedLattice S] in
theorem firstAt?_of_joined {q : Search (LocatedStates S) S} {l : List S} (hv : q.Valid)
    (h : q.Joined l) (n : NodeId) : q.reached.firstAt? n = joinAt n l := by
  apply Option.ext
  intro x
  rw [h n x]
  constructor
  · exact LocatedStates.mem_of_firstAt? hv
  · rintro ⟨hx, rfl⟩
    exact LocatedStates.firstAt?_of_unique hv hx fun y hy hloc => h.single y x hy hx hloc

omit [DecidableEq P] [JoinDomain S] [LocatedLattice S] in
theorem length_exits_le {q : Search (LocatedStates S) S} (hv : q.Valid) (hs : q.Single) (m : Method) :
    (A.block m q.reached).exits.length ≤ 1 := by
  unfold block
  cases A.graph.returnExit? m with
  | none => exact Nat.zero_le 1
  | some exit =>
    change (q.reached.statesAt exit).length ≤ 1
    cases hstates : q.reached.statesAt exit with
    | nil => exact Nat.zero_le 1
    | cons x l =>
      obtain ⟨hx, rfl⟩ := (LocatedStates.mem_statesAt hv).1 (hstates ▸ List.mem_cons_self)
      rw [← hstates, hs.statesAt_eq hv hx]
      exact Nat.le_refl 1

/-- A computed block of an analysis that joins has one exit state at most, and its state at a node is the join of
the entry state and of all that its run has found there. -/
theorem Computed.joined (h : A.Computed m k p b) (hO : A.operators = .join) :
    b.exits.length ≤ 1 ∧ ∃ (fuel room : Nat) (σ : Session S P) (t : Moment (Session S P) (LocatedStates S) S P),
      (A.analysis (A.procedure fuel room)).During p (A.begin k) (σ.enter m) t ∧ t.rest = [] ∧
      (∀ x, ¬ t.search.Awaits x) ∧ b = A.block m t.search.reached ∧
      ∀ n, b.reached.firstAt? n = joinAt n (k :: t.seen) := by
  obtain ⟨fuel, room, σ, q, τ, hrun, rfl⟩ := h
  obtain ⟨t, hduring, hrest, rfl, hnone⟩ := Analysis.during_of_completed hrun
  obtain ⟨hvalid, hjoined⟩ := hduring.joined hO valid_begin single_begin
  have hseed : ReachedSet.states (A.begin k).reached = [k] := by
    rfl
  rw [hseed] at hjoined
  exact ⟨length_exits_le hvalid hjoined.single m, fuel, room, σ, t, hduring, hrest, hnone, rfl,
    firstAt?_of_joined hvalid hjoined⟩

end Interprocedural

/-- A run that joins machine states has one state at most per node at every moment: the join of all that were there
at the start or have been found for the node since. A state that changes becomes strictly larger. Hence each cached
block has one exit state at most, and its state at a node is the join, that is, the least upper bound, of all that
its run has begun with or found there. -/
theorem Analysis.one_state_per_node {V P : Type} [JoinDomain V] [DecidableEq V] [ValueLattice V] [DecidableEq P] :
    (∀ {σ R : Type} [ReachedSet R (MachineState V)] [LawfulReachedSet R (MachineState V)]
        [ComparesLocally R (MachineState V)] (A : Analysis σ (MachineState V) P) (p : P)
        (q₀ : Search R (MachineState V)) (s₀ : σ), A.operators = .join → q₀.Valid → q₀.Single →
      (∀ m, A.During p q₀ s₀ m →
        m.search.Single ∧ m.search.Joined (ReachedSet.states q₀.reached ++ m.seen) ∧
        ∀ m', A.Passes p m m' → ∀ x, m.search.Reaches x →
          ∃ y, m'.search.Reaches y ∧ y.node = x.node ∧ (y = x ∨ Domain.le x y = true ∧ Domain.le y x = false)) ∧
      ∀ fuel o q s, A.run p fuel q₀ s₀ = (o, q, s) →
        q.Single ∧ ∃ m, A.During p q₀ s₀ m ∧ m.rest = [] ∧ q.reached = m.search.reached) ∧
    ∀ A : Interprocedural (MachineState V) P, A.operators = .join →
      ∀ allowed σ, A.Visited allowed σ → ∀ m k p b, σ.cache.get? m k p = some b →
        b.exits.length ≤ 1 ∧
        ∃ fuel room σ₀ t, (A.analysis (A.procedure fuel room)).During p (A.begin k) (Session.enter m σ₀) t ∧
          t.rest = [] ∧ (∀ x, ¬ t.search.Awaits x) ∧ b = A.block m t.search.reached ∧
          (∀ n, b.reached.firstAt? n = joinAt n (k :: t.seen)) ∧
          ∀ n x, b.reached.firstAt? n = some x → ∀ z,
            Domain.le x z = true ↔ ∀ y ∈ k :: t.seen, y.node = n → Domain.le y z = true := by
  constructor
  · intro σ R _ _ _ A p q₀ s₀ hO hv hs
    constructor
    · intro m h
      have hjoined := (h.joined hO hv hs).2
      exact ⟨hjoined.single, hjoined, fun m' hpasses x hx => h.raises hO hv hs hpasses hx⟩
    · intro fuel o q s hrun
      obtain ⟨m, h, hrest, heq⟩ := during_of_run hrun
      refine ⟨?_, m, h, hrest, heq⟩
      unfold Search.Single Search.Reaches
      rw [heq]
      exact (h.joined hO hv hs).2.single
  · intro A hO allowed σ hvisited m k p b hget
    obtain ⟨hexits, fuel, room, σ₀, t, hduring, hrest, hnone, hblock, hjoin⟩ :=
      (hvisited.stored.of_get? hget).joined hO
    refine ⟨hexits, fuel, room, σ₀, t, hduring, hrest, hnone, hblock, hjoin, fun n x hx z => ?_⟩
    rw [hjoin n] at hx
    exact le_iff_of_joinAt hx

namespace Interpreter

def reentrantProgram : Interprocedural (MachineState (Powerset Nat)) Unit :=
  counting.joining reentrantGraph .initial

def reentrantAnalysis : Analysis (Session (MachineState (Powerset Nat)) Unit) (MachineState (Powerset Nat)) Unit :=
  reentrantProgram.analysis (reentrantProgram.procedure 10 1)

def reentrantStart : Search (LocatedStates (MachineState (Powerset Nat))) (MachineState (Powerset Nat)) :=
  reentrantProgram.begin ⟨6, ⟨[.singleton 7], []⟩, labelledFields⟩

/-- The argument of the identity is joined with the field that it is replaced by. -/
theorem one_state_per_node_reentrant :
    (∃ q s, reentrantAnalysis.run () 10 reentrantStart (.start .never) = (.completed, q, s) ∧ q.Single) ∧
    ∃ b seen, reentrantSession.cache.get? identity ⟨6, ⟨[.singleton 7], []⟩, labelledFields⟩ () = some b ∧
      b.exits.length ≤ 1 ∧
      (∀ n, b.reached.firstAt? n = joinAt n (⟨6, ⟨[.singleton 7], []⟩, labelledFields⟩ :: seen)) ∧
      joinAt 6 (⟨6, ⟨[.singleton 7], []⟩, labelledFields⟩ :: seen) =
        some ⟨6, ⟨[(Powerset.singleton 7).insert 8], []⟩, labelledFields⟩ := by
  constructor
  · rcases hrun : reentrantAnalysis.run () 10 reentrantStart (.start .never) with ⟨o, q, s⟩
    have ho : (reentrantAnalysis.run () 10 reentrantStart (.start .never)).1 = .completed := by decide +kernel
    rw [hrun] at ho
    have hends := (Analysis.one_state_per_node.1 reentrantAnalysis () reentrantStart (.start .never) rfl
      Interprocedural.valid_begin Interprocedural.single_begin).2
    obtain ⟨hsingle, _⟩ := hends 10 o q s hrun
    exact ⟨q, s, by rw [← ho], hsingle⟩
  · have hstate : (reentrantSession.cache.get? identity ⟨6, ⟨[.singleton 7], []⟩, labelledFields⟩ ()).bind
        (·.reached.firstAt? 6) = some ⟨6, ⟨[(Powerset.singleton 7).insert 8], []⟩, labelledFields⟩ := by
      decide +kernel
    obtain ⟨b, hget, hfirst⟩ := Option.bind_eq_some_iff.1 hstate
    have hvisited : reentrantProgram.Visited (fun _ => True) reentrantSession :=
      .analyze _ _ _ _ (.start trivial)
    obtain ⟨hexits, _, _, _, t, _, _, _, _, hjoin, _⟩ :=
      Analysis.one_state_per_node.2 _ rfl _ _ hvisited _ _ _ _ hget
    exact ⟨b, t.seen, hget, hexits, hjoin, (hjoin 6).symm.trans hfirst⟩

end Interpreter

end BytecodeFlow
