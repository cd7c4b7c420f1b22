import BytecodeFlow.Proofs.FiniteDomains

/-! # Interrupted runs

A run that is aborted leaves its reached and pending states behind, and another run can go on from there. A
relation without state of its own cannot tell the difference: as long as the signal does not fire, an iteration
does what it would do under a signal that never fires, and an aborted iteration does nothing. However often a run
is interrupted, it ends with the reached states, the pending states and the outcome of one that is not.
-/
namespace BytecodeFlow

/-- The journal under a signal that never fires. -/
def Journal.uninterrupted {S P : Type} (j : Journal S P) : Journal S P := { j with signal := .never }

namespace Relation

variable {R S P : Type} [ReachedSet R S] [DecidableEq S]

/-- Runs that follow one another: each takes up what the aborted one before it has left, under a signal and a
bound of its own. The list holds the states that were explored in all of them. -/
inductive Resumes (T : Relation S P) (O : Operators S P) (p : P) (q : Search R S) :
    Outcome → Search R S → List (S × P) → Prop where
  | begin (signal : AbortSignal) (fuel : Nat) {o : Outcome} {q' : Search R S} {j : Journal S P} :
    (T.analysis O).run p fuel q ⟨signal, []⟩ = (o, q', j) → Resumes T O p q o q' j.explored
  | again (signal : AbortSignal) (fuel : Nat) {o : Outcome} {q₁ q' : Search R S} {explored : List (S × P)}
      {j : Journal S P} : Resumes T O p q .aborted q₁ explored →
    (T.analysis O).run p fuel q₁ ⟨signal, explored⟩ = (o, q', j) → Resumes T O p q o q' j.explored

variable {T : Relation S P} {O : Operators S P} {p : P} {q q' : Search R S} {j j' : Journal S P} {o : Outcome}

omit [DecidableEq S] in
theorem transfer_uninterrupted_of_ok {x : S} {l : List S} (h : (T.analysis O).transfer x p j = .ok l j') :
    (T.analysis O).transfer x p j.uninterrupted = .ok l j'.uninterrupted ∧
      j'.explored.length = j.explored.length + 1 := by
  have hT := transfer_eq_ok h
  rw [transfer_eq, hT] at h ⊢
  obtain ⟨_, rfl⟩ := EStateM.Result.ok.inj h
  exact ⟨rfl, List.length_append⟩

omit [DecidableEq S] in
theorem transfer_uninterrupted_of_error {x : S} {e : Halt} (h : (T.analysis O).transfer x p j = .error e j') :
    (T.analysis O).transfer x p j.uninterrupted = .error e j'.uninterrupted ∧
      j'.explored.length = j.explored.length + 1 := by
  rw [transfer_eq] at h ⊢
  cases hT : T x p with
  | ok l =>
    rw [hT] at h
    cases h
  | error f =>
    rw [hT] at h
    obtain ⟨rfl, rfl⟩ := EStateM.Result.error.inj h
    exact ⟨rfl, List.length_append⟩

omit [DecidableEq S] in
theorem explored_of_poll {fires : Bool} (h : (T.analysis O).poll j = (fires, j')) : j'.explored = j.explored := by
  obtain ⟨_, rfl⟩ := Prod.mk.inj h
  rfl

omit [DecidableEq S] in
theorem uninterrupted_of_poll {fires : Bool} (h : (T.analysis O).poll j = (fires, j')) :
    j'.uninterrupted = j.uninterrupted := by
  unfold Journal.uninterrupted
  rw [explored_of_poll h]

/-! ### One iteration -/

theorem iterate_uninterrupted_of_next (h : (T.analysis O).iterate p q j = .next q' j') :
    (T.analysis O).iterate p q j.uninterrupted = .next q' j'.uninterrupted ∧
      j'.explored.length = j.explored.length + 1 := by
  obtain ⟨j₁, x, w, l, hpoll, hpop, htransfer, rfl⟩ := Analysis.iterate_next h
  obtain ⟨hsame, hlength⟩ := transfer_uninterrupted_of_ok htransfer
  rw [explored_of_poll hpoll] at hlength
  rw [uninterrupted_of_poll hpoll] at hsame
  exact ⟨Analysis.iterate_of_ok rfl hpop hsame, hlength⟩

theorem iterate_aborted (h : (T.analysis O).iterate p q j = .stop .aborted q' j') :
    q' = q ∧ j'.explored = j.explored := by
  rcases Analysis.iterate_stop h with ⟨_, hq, hpoll⟩ | ⟨ho, _⟩ | ⟨_, _, _, _, ho, _⟩
  · exact ⟨hq, explored_of_poll hpoll⟩
  · cases ho
  · cases ho

/-- The last iteration explores one more state if the successors of that state cannot be computed. -/
theorem iterate_uninterrupted_of_stop (h : (T.analysis O).iterate p q j = .stop o q' j') (ho : o ≠ .aborted) :
    (T.analysis O).iterate p q j.uninterrupted = .stop o q' j'.uninterrupted ∧
      j.explored.length ≤ j'.explored.length := by
  rcases Analysis.iterate_stop h with ⟨haborted, _⟩ | ⟨rfl, rfl, hpoll, hpop⟩ |
    ⟨j₁, x, w, e, rfl, hpoll, hpop, htransfer, rfl⟩
  · exact absurd haborted ho
  · rw [uninterrupted_of_poll hpoll, explored_of_poll hpoll]
    exact ⟨Analysis.iterate_of_empty rfl hpop, Nat.le_refl _⟩
  · obtain ⟨hsame, hlength⟩ := transfer_uninterrupted_of_error htransfer
    rw [explored_of_poll hpoll] at hlength
    rw [uninterrupted_of_poll hpoll] at hsame
    exact ⟨Analysis.iterate_of_error rfl hpop hsame, by omega⟩

/-! ### One run -/

/-- An aborted run stands where the run that is not interrupted stands after as many iterations. -/
theorem run_uninterrupted_of_aborted {fuel : Nat} (h : (T.analysis O).run p fuel q j = (.aborted, q', j')) :
    ∃ k, j'.explored.length = j.explored.length + k ∧ ∀ n,
      (T.analysis O).run p (k + n) q j.uninterrupted = (T.analysis O).run p n q' j'.uninterrupted := by
  induction fuel generalizing q j with
  | zero => cases h
  | succ fuel ih =>
    cases hiter : (T.analysis O).iterate p q j with
    | stop o₁ q₁ j₁ =>
      rw [Analysis.run_succ_of_stop hiter] at h
      obtain ⟨rfl, rfl, rfl⟩ : o₁ = .aborted ∧ q₁ = q' ∧ j₁ = j' := by simpa using h
      obtain ⟨rfl, hexplored⟩ := iterate_aborted hiter
      refine ⟨0, by rw [hexplored, Nat.add_zero], fun n => ?_⟩
      unfold Journal.uninterrupted
      rw [Nat.zero_add, hexplored]
    | next q₁ j₁ =>
      rw [Analysis.run_succ_of_next hiter] at h
      obtain ⟨hnext, hlength⟩ := iterate_uninterrupted_of_next hiter
      obtain ⟨k, hk, hrun⟩ := ih h
      refine ⟨k + 1, by omega, fun n => ?_⟩
      rw [Nat.add_right_comm, Analysis.run_succ_of_next hnext, hrun]

/-- A run that comes to its end does so in the same way if it is not interrupted. -/
theorem run_uninterrupted_of_ended {fuel : Nat} (h : (T.analysis O).run p fuel q j = (o, q', j'))
    (ho : o ≠ .aborted) (hbound : o ≠ .halted .exhausted) :
    j.explored.length ≤ j'.explored.length ∧ ∀ n, j'.explored.length < j.explored.length + n →
      (T.analysis O).run p n q j.uninterrupted = (o, q', j'.uninterrupted) := by
  induction fuel generalizing q j with
  | zero => exact absurd (Prod.mk.inj h).1.symm hbound
  | succ fuel ih =>
    cases hiter : (T.analysis O).iterate p q j with
    | stop o₁ q₁ j₁ =>
      rw [Analysis.run_succ_of_stop hiter] at h
      obtain ⟨rfl, rfl, rfl⟩ : o₁ = o ∧ q₁ = q' ∧ j₁ = j' := by simpa using h
      obtain ⟨hstop, hlength⟩ := iterate_uninterrupted_of_stop hiter ho
      refine ⟨hlength, fun n hn => ?_⟩
      obtain ⟨n, rfl⟩ : ∃ k, n = k + 1 := ⟨n - 1, by omega⟩
      exact Analysis.run_succ_of_stop hstop n
    | next q₁ j₁ =>
      rw [Analysis.run_succ_of_next hiter] at h
      obtain ⟨hnext, hlength⟩ := iterate_uninterrupted_of_next hiter
      obtain ⟨hle, hrun⟩ := ih h
      refine ⟨by omega, fun n hn => ?_⟩
      obtain ⟨n, rfl⟩ : ∃ k, n = k + 1 := ⟨n - 1, by omega⟩
      rw [Analysis.run_succ_of_next hnext]
      apply hrun
      omega

/-! ### Runs that follow one another -/

variable {explored : List (S × P)}

theorem Resumes.aborted (h : T.Resumes O p q .aborted q' explored) (n : Nat) :
    (T.analysis O).run p (explored.length + n) q ⟨.never, []⟩ = (T.analysis O).run p n q' ⟨.never, explored⟩ := by
  generalize ho : Outcome.aborted = o at h
  induction h generalizing n with
  | begin _ _ hrun =>
    subst ho
    obtain ⟨k, hk, heq⟩ := run_uninterrupted_of_aborted hrun
    rw [hk, List.length_nil, Nat.zero_add]
    exact heq n
  | @again _ _ _ q₁ _ before j _ hrun ih =>
    subst ho
    obtain ⟨k, hk, heq⟩ := run_uninterrupted_of_aborted hrun
    calc (T.analysis O).run p (j.explored.length + n) q ⟨.never, []⟩
        = (T.analysis O).run p (before.length + (k + n)) q ⟨.never, []⟩ := by rw [hk, Nat.add_assoc]
      _ = (T.analysis O).run p (k + n) q₁ ⟨.never, before⟩ := ih (k + n) rfl
      _ = (T.analysis O).run p n _ ⟨.never, j.explored⟩ := heq n

/-- Aborting and resuming makes no difference. Runs that follow one another until one of them ends without being
aborted have the outcome, the reached states in their order, the pending states and the explored states of a
single run that is never aborted. Where they stand after an abort, that run stands after as many iterations. -/
theorem resumed_eq_uninterrupted (h : T.Resumes O p q o q' explored) :
    (o = .aborted → (T.analysis O).run p explored.length q ⟨.never, []⟩ =
        (.halted .exhausted, q', ⟨.never, explored⟩) ∧
      ∀ n, (T.analysis O).run p (explored.length + n) q ⟨.never, []⟩ =
        (T.analysis O).run p n q' ⟨.never, explored⟩) ∧
    (o ≠ .aborted → o ≠ .halted .exhausted → ∀ n, explored.length < n →
      (T.analysis O).run p n q ⟨.never, []⟩ = (o, q', ⟨.never, explored⟩)) := by
  refine ⟨?_, fun ho hbound n hn => ?_⟩
  · rintro rfl
    exact ⟨h.aborted 0, h.aborted⟩
  · cases h with
    | begin _ _ hrun => exact (run_uninterrupted_of_ended hrun ho hbound).2 n (by simpa using hn)
    | again _ _ hbefore hrun =>
      obtain ⟨hle, hended⟩ := run_uninterrupted_of_ended hrun ho hbound
      obtain ⟨k, rfl⟩ : ∃ k, n = _ + k := Nat.exists_eq_add_of_le (hle.trans hn.le)
      exact (hbefore.aborted k).trans (hended k hn)

end Relation

/-- Counters on the roundabout: the first run is aborted at its fourth poll, the second at its first, and the third
completes. -/
theorem Passage.resumed_eq_uninterrupted_roundabout :
    ∃ q₁ q' before explored,
      (relation roundabout).Resumes .join () roundaboutPlain .aborted q₁ before ∧ before.length = 3 ∧
      ((relation roundabout).analysis .join).run () 3 roundaboutPlain ⟨.never, []⟩ =
        (.halted .exhausted, q₁, ⟨.never, before⟩) ∧
      (relation roundabout).Resumes .join () roundaboutPlain .completed q' explored ∧ explored.length = 8 ∧
      ((relation roundabout).analysis .join).run () 9 roundaboutPlain ⟨.never, []⟩ =
        (.completed, q', ⟨.never, explored⟩) := by
  have hfirst : ((relation roundabout).analysis .join).run () 10 roundaboutPlain ⟨.atPolls [3], []⟩ =
      (.aborted, _, _) := rfl
  have haborted := Relation.Resumes.again (.atPolls [0]) 10 (.begin _ _ hfirst) rfl
  have hended := Relation.Resumes.again (.controlled false) 10 haborted rfl
  exact ⟨_, _, _, _, haborted, rfl, ((Relation.resumed_eq_uninterrupted haborted).1 rfl).1, hended, rfl,
    (Relation.resumed_eq_uninterrupted hended).2 (by decide) (by decide) 9 (by decide)⟩

end BytecodeFlow
