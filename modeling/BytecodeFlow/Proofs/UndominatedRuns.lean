import BytecodeFlow.Proofs.Coverage
import BytecodeFlow.Proofs.SeparateRuns

/-! # Runs that admit no dominated state

A run that never merges, and drops every successor that lies below a reached state, admits a state only if it lies
below none of those that were reached before. The states that it admits follow the seeds in the order in which they
were admitted. Each of them stays pending until it is explored, which happens once unless it was pending at the
start.
-/
namespace BytecodeFlow

theorem Operators.separate_sep {S P : Type} [Domain S] (hrefl : ∀ a : S, Domain.le a a = true) :
    (sep : Operators S P).Separate where
  merge := rfl
  adjust := rfl
  stop {c _ _} h := List.any_eq_true.2 ⟨c, h, hrefl c⟩

/-! ### Domination -/

/-- No admitted state lies below a seed or below a state that was admitted before it. -/
structure Undominated {S : Type} [Domain S] (seeds admitted : List S) : Prop where
  seeds : ∀ x ∈ admitted, ∀ y ∈ seeds, Domain.le x y = false
  earlier : admitted.Pairwise fun y x => Domain.le x y = false

theorem Undominated.concat {S : Type} [Domain S] {seeds admitted : List S} {c : S}
    (h : Undominated seeds admitted) (hc : ∀ y ∈ seeds ++ admitted, Domain.le c y = false) :
    Undominated seeds (admitted ++ [c]) where
  seeds := by
    intro x hx y hy
    rcases List.mem_append.1 hx with hx | hx
    · exact h.seeds x hx y hy
    · rw [List.mem_singleton.1 hx]
      exact hc y (List.mem_append_left _ hy)
  earlier := by
    rw [List.pairwise_append]
    refine ⟨h.earlier, List.pairwise_singleton _ _, ?_⟩
    intro y hy x hx
    rw [List.mem_singleton.1 hx]
    exact hc y (List.mem_append_right _ hy)

/-- Incorporating successors keeps the admitted states undominated. -/
theorem Undominated.incorporateAll {S P : Type} [DecidableEq S] [Domain S] (hrefl : ∀ a : S, Domain.le a a = true)
    {p : P} {q : Search (OrderedSet S) S} {l seeds admitted admitted' : List S} (h : Undominated seeds admitted)
    (hq : q.reached.toList = seeds ++ admitted)
    (hq' : (q.incorporateAll .sep p l).reached.toList = seeds ++ admitted') : Undominated seeds admitted' := by
  induction l generalizing q admitted with
  | nil =>
    obtain rfl : admitted = admitted' := List.append_cancel_left (hq.symm.trans hq')
    exact h
  | cons c l ih =>
    change ((q.incorporate .sep p c).incorporateAll .sep p l).reached.toList = _ at hq'
    rw [Search.incorporate_separate (Operators.separate_sep hrefl)] at hq'
    split at hq'
    · exact ih h hq hq'
    · rename_i hstop
      have hc : ∀ y ∈ seeds ++ admitted, Domain.le c y = false := by
        intro y hy
        rw [Bool.eq_false_iff]
        intro hle
        exact hstop (List.any_eq_true.2 ⟨y, hq ▸ hy, hle⟩)
      have hfresh : c ∉ q.reached.toList := by
        intro hmem
        exact absurd (hrefl c) (by simp [hc c (hq ▸ hmem)])
      apply ih (h.concat hc) _ hq'
      change (q.reached.insert c).toList = _
      rw [OrderedSet.toList_insert, if_neg hfresh, hq, List.append_assoc]

namespace Relation

variable {S P : Type} {T : Relation S P} {O : Operators S P} {p : P} {q₀ q q' : Search (OrderedSet S) S}
  {j₀ j j' : Journal S P} {x : S}

/-- A discovered state is found by one or more steps from a state that was pending at the start. -/
theorem Discovered.transGen (h : T.Discovered p q₀ x) :
    ∃ s, q₀.Awaits s ∧ Relation.TransGen (T.Steps p) s x := by
  induction h with
  | pending hs hstep _ => exact ⟨_, hs, .single hstep⟩
  | discovered _ hstep _ ih =>
    obtain ⟨s, hs, hpath⟩ := ih
    exact ⟨s, hs, hpath.tail hstep⟩

variable [DecidableEq S]

/-- What a run has come to after so many iterations, or when it ended before. -/
def after (T : Relation S P) (O : Operators S P) (p : P) (q : Search (OrderedSet S) S) (j : Journal S P)
    (fuel : Nat) : Search (OrderedSet S) S × Journal S P :=
  ((T.analysis O).run p fuel q j).2

/-- Before the run has ended, this is the head of the next iteration. -/
theorem after_add {n : Nat} (h : (T.analysis O).head p n q j = some (q', j')) (m : Nat) :
    T.after O p q j (n + m) = T.after O p q' j' m := by
  rw [after, Analysis.run_head h, after]

/-- The last iteration of a run admits nothing, and explores the state that it takes out, if there is one. -/
theorem stop_separate {o : Outcome} (hO : O.Separate) (h : (T.analysis O).iterate p q j = .stop o q' j') :
    (q' = q ∧ j'.explored = j.explored) ∨
      ∃ x w, q.waiting.pop? = some (x, w) ∧ q' = ⟨q.reached, w⟩ ∧ j'.explored = j.explored ++ [(x, p)] := by
  rcases Analysis.iterate_stop h with ⟨_, rfl, hpoll⟩ | ⟨_, rfl, hpoll, _⟩ | ⟨j₁, x, w, f, _, hpoll, hpop, herror, rfl⟩
  · exact .inl ⟨rfl, explored_of_poll hpoll⟩
  · exact .inl ⟨rfl, explored_of_poll hpoll⟩
  · refine .inr ⟨x, w, hpop, rfl, ?_⟩
    rw [adjusted_separate hO, transfer_eq] at herror
    cases hT : T x p with
    | ok l =>
      rw [hT] at herror
      cases herror
    | error e =>
      rw [hT] at herror
      obtain ⟨_, rfl⟩ := EStateM.Result.error.inj herror
      change j₁.explored ++ [(x, p)] = _
      rw [explored_of_poll hpoll]

/-! ### Pending states -/

/-- What is pending stays so until it is explored. -/
theorem pending_until_explored (hO : O.Separate) (n : Nat) :
    ∃ since : List S, (T.after O p q j n).2.explored = j.explored ++ since.map (·, p) ∧
      ∀ x, q.Awaits x → (T.after O p q j n).1.Awaits x ∨ x ∈ since := by
  let Left (q' : Search (OrderedSet S) S) (j' : Journal S P) : Prop :=
    ∃ since : List S, j'.explored = j.explored ++ since.map (·, p) ∧ ∀ x, q.Awaits x → q'.Awaits x ∨ x ∈ since
  -- an iteration explores the state that it takes out, and nothing else ceases to be pending
  have htaken : ∀ {q₁ q₂ : Search (OrderedSet S) S} {j₁ j₂ : Journal S P} {y : S} {w : Waitlist S}, Left q₁ j₁ →
      q₁.waiting.pop? = some (y, w) → j₂.explored = j₁.explored ++ [(y, p)] →
      (∀ x ∈ w.pending, q₂.Awaits x) → Left q₂ j₂ := by
    rintro q₁ q₂ j₁ j₂ y w ⟨since, hsince, hleft⟩ hpop hexplored hkept
    refine ⟨since ++ [y], by rw [hexplored, hsince]; simp, fun x hx => ?_⟩
    rcases hleft x hx with hx | hx
    · rcases (Waitlist.mem_of_pop? hpop).1 hx with rfl | hx
      · exact .inr (by simp)
      · exact .inl (hkept x hx)
    · exact .inr (List.mem_append_left _ hx)
  have hnext : ∀ q₁ j₁ q₂ j₂, Left q₁ j₁ → (T.analysis O).iterate p q₁ j₁ = .next q₂ j₂ → Left q₂ j₂ := by
    intro q₁ j₁ q₂ j₂ hleft hiterate
    obtain ⟨y, w, _, _, hpop, _, _, hexplored, _, _, hawaits⟩ := next_separate hO hiterate
    exact htaken hleft hpop hexplored fun x hx => (hawaits x).2 (.inl hx)
  have hstart : Left q j := ⟨[], by simp, fun x hx => .inl hx⟩
  rcases hrun : (T.analysis O).run p n q j with ⟨o, q', j'⟩
  rw [after, hrun]
  rcases Analysis.run_invariant Left hnext hrun hstart with ⟨_, h⟩ | ⟨q₁, j₁, h, hstop⟩
  · exact h
  · rcases stop_separate hO hstop with ⟨rfl, hexplored⟩ | ⟨y, w, hpop, rfl, hexplored⟩
    · obtain ⟨since, hsince, hleft⟩ := h
      exact ⟨since, hexplored.trans hsince, hleft⟩
    · exact htaken h hpop hexplored fun x hx => hx

/-- A state that an iteration admits is pending from then on until it is explored. -/
theorem admitted_until_explored (hO : O.Separate) {n m : Nat} (hnm : n < m)
    (hbefore : x ∉ (T.after O p q j n).1.reached) (hadmitted : x ∈ (T.after O p q j (n + 1)).1.reached) :
    ∃ since : List S, (T.after O p q j m).2.explored = (T.after O p q j (n + 1)).2.explored ++ since.map (·, p) ∧
      ((T.after O p q j m).1.Awaits x ∨ x ∈ since) := by
  cases hhead : (T.analysis O).head p n q j with
  | none =>
    rw [after, Analysis.run_of_head_eq_none hhead n.le_succ] at hadmitted
    exact absurd hadmitted hbefore
  | some here =>
    obtain ⟨q₁, j₁⟩ := here
    rw [← Nat.add_zero n, after_add hhead] at hbefore
    cases hiterate : (T.analysis O).iterate p q₁ j₁ with
    | stop o q₂ j₂ =>
      rw [after_add hhead, after, Analysis.run_succ_of_stop hiterate] at hadmitted
      rcases stop_separate hO hiterate with ⟨rfl, _⟩ | ⟨_, _, _, rfl, _⟩
      · exact absurd hadmitted hbefore
      · exact absurd hadmitted hbefore
    | next q₂ j₂ =>
      have hthen : (T.analysis O).head p (n + 1) q j = some (q₂, j₂) :=
        Analysis.head_succ_eq_some.2 ⟨q₁, j₁, hhead, hiterate⟩
      obtain ⟨k, rfl⟩ := Nat.exists_eq_add_of_lt hnm
      have hafter : T.after O p q j (n + 1) = (q₂, j₂) := after_add hthen 0
      rw [hafter] at hadmitted ⊢
      rw [show n + k + 1 = n + 1 + k by omega, after_add hthen]
      obtain ⟨_, _, _, new, _, _, _, _, hreached, _, hawaits⟩ := next_separate hO hiterate
      have hmem : x ∈ q₂.reached.toList := hadmitted
      rw [hreached, List.mem_append] at hmem
      have hnew : x ∈ new := hmem.resolve_left hbefore
      obtain ⟨since, hsince, hleft⟩ := pending_until_explored hO k
      exact ⟨since, hsince, hleft x ((hawaits x).2 (.inr hnew))⟩

/-! ### Explorations -/

/-- A state that was not pending at the start has been explored once at most. -/
theorem Growing.count_le {admitted explored : List S} (h : T.Growing p q₀ j₀ q j admitted explored)
    (hx : ¬ q₀.Awaits x) : explored.count x ≤ 1 := by
  by_cases hmem : x ∈ admitted
  · rw [h.once x hmem hx]
    split <;> decide
  · have hnone : x ∉ explored := fun hasked => (h.asked x hasked).elim hx hmem
    rw [List.count_eq_zero.2 hnone]
    decide

/-- What is pending has not been explored, unless it was pending at the start. -/
theorem Growing.count_concat_le {admitted explored : List S} (h : T.Growing p q₀ j₀ q j admitted explored) {y : S}
    (hy : q.Awaits y) (hx : ¬ q₀.Awaits x) : (explored ++ [y]).count x ≤ 1 := by
  rw [List.count_append, List.count_singleton]
  by_cases hyx : y = x
  · subst hyx
    have hmem : y ∈ admitted := (h.pending y hy).resolve_left hx
    have hpending : y ∈ q.waiting.pending := hy
    simp [h.once y hmem hx, hpending]
  · simpa [hyx] using h.count_le hx

variable [Domain S]

/-- Whenever an iteration begins, the admitted states are undominated. -/
theorem undominated_next (hrefl : ∀ a : S, Domain.le a a = true) {admitted explored : List S}
    (h : T.Growing p q₀ j₀ q j admitted explored) (hfree : Undominated q₀.reached.toList admitted)
    (hnext : (T.analysis .sep).iterate p q j = .next q' j') :
    ∃ admitted' explored', T.Growing p q₀ j₀ q' j' admitted' explored' ∧
      Undominated q₀.reached.toList admitted' := by
  obtain ⟨x, w, l, new, hpop, hT, hq', hjournal, hreached, hsub, hawaits⟩ :=
    next_separate (Operators.separate_sep hrefl) hnext
  have hgrowing := h.next hpop hT hjournal hreached hsub hawaits
  have hreached' := hgrowing.reached
  rw [hq'] at hreached'
  exact ⟨_, _, hgrowing, hfree.incorporateAll hrefl (q := ⟨q.reached, w⟩) h.reached hreached'⟩

/-- However far a run has come, the admitted states follow the seeds, are found from the pending ones and are
undominated, and no state is explored twice that was not pending at the start. -/
theorem undominated_after (hrefl : ∀ a : S, Domain.le a a = true) (T : Relation S P) (p : P)
    (q₀ : Search (OrderedSet S) S) (j₀ : Journal S P) (n : Nat) :
    ∃ admitted explored : List S,
      (T.after .sep p q₀ j₀ n).1.reached.toList = q₀.reached.toList ++ admitted ∧
      (∀ x ∈ admitted, T.Discovered p q₀ x) ∧ Undominated q₀.reached.toList admitted ∧
      (T.after .sep p q₀ j₀ n).2.explored = j₀.explored ++ explored.map (·, p) ∧
      ∀ x, ¬ q₀.Awaits x → explored.count x ≤ 1 := by
  have hstart : Undominated q₀.reached.toList [] := ⟨by simp, .nil⟩
  rcases hrun : (T.analysis .sep).run p n q₀ j₀ with ⟨o, q, j⟩
  rw [after, hrun]
  rcases Analysis.run_invariant
    (fun q j => ∃ admitted explored, T.Growing p q₀ j₀ q j admitted explored ∧ Undominated q₀.reached.toList admitted)
    (fun q j q' j' ⟨_, _, h, hfree⟩ hnext => undominated_next hrefl h hfree hnext) hrun
    ⟨[], [], growing_start T p q₀ j₀, hstart⟩ with ⟨_, admitted, explored, h, hfree⟩ |
      ⟨q₁, j₁, ⟨admitted, explored, h, hfree⟩, hstop⟩
  · exact ⟨admitted, explored, h.reached, h.sound, hfree, h.journal, fun x => h.count_le⟩
  · rcases stop_separate (Operators.separate_sep hrefl) hstop with ⟨rfl, hexplored⟩ | ⟨y, w, hpop, rfl, hexplored⟩
    · exact ⟨admitted, explored, h.reached, h.sound, hfree, hexplored.trans h.journal, fun x => h.count_le⟩
    · have hy : q₁.Awaits y := (Waitlist.mem_of_pop? hpop).2 (.inl rfl)
      refine ⟨admitted, explored ++ [y], h.reached, h.sound, hfree, ?_, fun x => h.count_concat_le hy⟩
      simp [hexplored, h.journal]

/-- However far a run has come, its reached states are the seeds followed by different admitted states, each of
which is found by one or more steps from a state that was pending at the start and lies below none of the states
before it. A state that was not pending at the start is explored once at most, and an admitted state is pending from
the iteration that admits it until it is explored. -/
theorem admits_undominated (hrefl : ∀ a : S, Domain.le a a = true) (T : Relation S P) (p : P)
    (q₀ : Search (OrderedSet S) S) (j₀ : Journal S P) :
    (∀ n, ∃ admitted explored : List S,
      (T.after .sep p q₀ j₀ n).1.reached.toList = q₀.reached.toList ++ admitted ∧ admitted.Nodup ∧
      (∀ x ∈ admitted, ∃ s, q₀.Awaits s ∧ Relation.TransGen (T.Steps p) s x) ∧
      Undominated q₀.reached.toList admitted ∧
      (T.after .sep p q₀ j₀ n).2.explored = j₀.explored ++ explored.map (·, p) ∧
      ∀ x, ¬ q₀.Awaits x → explored.count x ≤ 1) ∧
    ∀ n m x, n < m → x ∉ (T.after .sep p q₀ j₀ n).1.reached → x ∈ (T.after .sep p q₀ j₀ (n + 1)).1.reached →
      ∃ since : List S,
        (T.after .sep p q₀ j₀ m).2.explored = (T.after .sep p q₀ j₀ (n + 1)).2.explored ++ since.map (·, p) ∧
        ((T.after .sep p q₀ j₀ m).1.Awaits x ∨ x ∈ since) := by
  constructor
  · intro n
    obtain ⟨admitted, explored, hreached, hsound, hfree, hjournal, honce⟩ := undominated_after hrefl T p q₀ j₀ n
    have hnodup : (q₀.reached.toList ++ admitted).Nodup := hreached ▸ (T.after .sep p q₀ j₀ n).1.reached.nodup
    exact ⟨admitted, explored, hreached, (List.nodup_append.1 hnodup).2.1, fun x hx => (hsound x hx).transGen, hfree,
      hjournal, honce⟩
  · intro n m x hnm hbefore hadmitted
    exact admitted_until_explored (Operators.separate_sep hrefl) hnm hbefore hadmitted

end Relation

namespace Passage

/-- The third point is reached but not pending, the first one is pending but not reached. -/
def roundaboutStart : Search (OrderedSet Positioned) Positioned :=
  ⟨.ofList [⟨3, 2⟩], ⟨.depthFirst, .ofList [⟨1, 0⟩]⟩⟩

/-- The first successor at the third point lies below the seed there, and is dropped. The second one does not; the
second iteration admits it, and the third one explores it. -/
theorem admits_undominated_roundabout :
    ((relation roundabout).after .sep () roundaboutStart ⟨.never, []⟩ 10).1.reached.toList =
        [⟨3, 2⟩, ⟨2, 2⟩, ⟨3, 3⟩, ⟨1, 4⟩, ⟨2, 5⟩, ⟨3, 5⟩, ⟨1, 5⟩] ∧
      Undominated [⟨3, 2⟩] [⟨2, 2⟩, ⟨3, 3⟩, ⟨1, 4⟩, ⟨2, 5⟩, ⟨3, 5⟩, (⟨1, 5⟩ : Positioned)] ∧
      ∃ since : List Positioned,
        ((relation roundabout).after .sep () roundaboutStart ⟨.never, []⟩ 3).2.explored =
          ((relation roundabout).after .sep () roundaboutStart ⟨.never, []⟩ 2).2.explored ++ since.map (·, ()) ∧
        (((relation roundabout).after .sep () roundaboutStart ⟨.never, []⟩ 3).1.Awaits ⟨3, 3⟩ ∨ ⟨3, 3⟩ ∈ since) := by
  have hrefl : ∀ s : Positioned, Domain.le s s = true := PreorderedDomain.le_refl
  have h := Relation.admits_undominated hrefl (relation roundabout) () roundaboutStart ⟨.never, []⟩
  obtain ⟨admitted, _, hreached, _, _, hfree, _⟩ := h.1 10
  have hsplit : [⟨3, 2⟩] ++ [⟨2, 2⟩, ⟨3, 3⟩, ⟨1, 4⟩, ⟨2, 5⟩, ⟨3, 5⟩, ⟨1, 5⟩] = [⟨3, 2⟩] ++ admitted := hreached
  rw [← List.append_cancel_left hsplit] at hfree
  exact ⟨rfl, hfree, h.2 1 3 ⟨3, 3⟩ (by decide) (by decide) (by decide)⟩

end Passage

end BytecodeFlow
