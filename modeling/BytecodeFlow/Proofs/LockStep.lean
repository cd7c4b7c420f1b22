import BytecodeFlow.Proofs.Exploration
import BytecodeFlow.Proofs.Refinement

/-! # Runs in lock-step

Two analyses with the same operators decide alike if, in related states, their signals give the same answer and their
successors are the same, and if the states stay related. Their runs then go on together, iteration by iteration, and
end in the same way.
-/
namespace BytecodeFlow

namespace Effect

variable {σ α : Type} {c : Effect σ α} {s : σ}

theorem eq_ok_of_outcome {a : α} (h : c.outcome s = .ok a) : c s = .ok a (c.final s) := by
  cases hc : c s with
  | ok b t =>
    rw [(outcome_final_of_ok hc).1] at h
    rw [(outcome_final_of_ok hc).2, Except.ok.inj h]
  | error e t =>
    rw [(outcome_final_of_error hc).1] at h
    cases h

theorem eq_error_of_outcome {e : Halt} (h : c.outcome s = .error e) : c s = .error e (c.final s) := by
  cases hc : c s with
  | ok b t =>
    rw [(outcome_final_of_ok hc).1] at h
    cases h
  | error e' t =>
    rw [(outcome_final_of_error hc).1] at h
    rw [(outcome_final_of_error hc).2, Except.error.inj h]

theorem outcome_ofExcept (r : Except Fault α) : (ofExcept r : Effect σ α).outcome s = r.mapError .fault := by
  cases r <;> rfl

end Effect

namespace Analysis

variable {σ τ R S P : Type} [ReachedSet R S] [DecidableEq S]

/-- The analyses decide alike in related states, and their states stay related. -/
structure Alike (A : Analysis σ S P) (B : Analysis τ S P) (rel : σ → τ → Prop) : Prop where
  operators : A.operators = B.operators
  poll {s : σ} {t : τ} : rel s t → (A.poll s).1 = (B.poll t).1 ∧ rel (A.poll s).2 (B.poll t).2
  transfer {s : σ} {t : τ} (x : S) (p : P) : rel s t →
    (A.transfer x p).outcome s = (B.transfer x p).outcome t ∧
      rel ((A.transfer x p).final s) ((B.transfer x p).final t)

variable {A : Analysis σ S P} {B : Analysis τ S P} {rel : σ → τ → Prop} {p : P} {q q' : Search R S} {s s' : σ}
  {t : τ} {o : Outcome}

omit [DecidableEq S] in
theorem Alike.adjusted (h : A.Alike B rel) (x : S) : A.adjusted p q x = B.adjusted p q x := by
  unfold Analysis.adjusted
  rw [h.operators]

omit [DecidableEq S] in
theorem Alike.answer (h : A.Alike B rel) (hst : rel s t) {fires : Bool} (hpoll : A.poll s = (fires, s')) :
    ∃ t', B.poll t = (fires, t') ∧ rel s' t' := by
  obtain ⟨hfires, hrel⟩ := h.poll hst
  rw [hpoll] at hfires hrel
  exact ⟨_, Prod.ext hfires.symm rfl, hrel⟩

theorem Alike.iterate_next (h : A.Alike B rel) (hst : rel s t) (hnext : A.iterate p q s = .next q' s') :
    ∃ t', B.iterate p q t = .next q' t' ∧ rel s' t' := by
  obtain ⟨s₁, x, w, l, hpoll, hpop, hok, rfl⟩ := Analysis.iterate_next hnext
  obtain ⟨t₁, hpoll', hrel⟩ := h.answer hst hpoll
  obtain ⟨hsame, hfinal⟩ := h.transfer (A.adjusted p q x).1 (A.adjusted p q x).2 hrel
  rw [(Effect.outcome_final_of_ok hok).1] at hsame
  rw [(Effect.outcome_final_of_ok hok).2] at hfinal
  rw [h.adjusted] at hsame hfinal ⊢
  rw [h.operators]
  exact ⟨_, iterate_of_ok hpoll' hpop (Effect.eq_ok_of_outcome hsame.symm), hfinal⟩

theorem iterate_of_fires {s₁ : σ} (hpoll : A.poll s = (true, s₁)) : A.iterate p q s = .stop .aborted q s₁ := by
  unfold iterate
  rw [hpoll]

theorem Alike.iterate_stop (h : A.Alike B rel) (hst : rel s t) (hstop : A.iterate p q s = .stop o q' s') :
    ∃ t', B.iterate p q t = .stop o q' t' ∧ rel s' t' := by
  rcases Analysis.iterate_stop hstop with ⟨rfl, rfl, hpoll⟩ | ⟨rfl, rfl, hpoll, hpop⟩ |
    ⟨s₁, x, w, e, rfl, hpoll, hpop, herror, rfl⟩
  · obtain ⟨t₁, hpoll', hrel⟩ := h.answer hst hpoll
    exact ⟨t₁, iterate_of_fires hpoll', hrel⟩
  · obtain ⟨t₁, hpoll', hrel⟩ := h.answer hst hpoll
    exact ⟨t₁, iterate_of_empty hpoll' hpop, hrel⟩
  · obtain ⟨t₁, hpoll', hrel⟩ := h.answer hst hpoll
    obtain ⟨hsame, hfinal⟩ := h.transfer (A.adjusted p q x).1 (A.adjusted p q x).2 hrel
    rw [(Effect.outcome_final_of_error herror).1] at hsame
    rw [(Effect.outcome_final_of_error herror).2] at hfinal
    rw [h.adjusted] at hsame hfinal
    exact ⟨_, iterate_of_error hpoll' hpop (Effect.eq_error_of_outcome hsame.symm), hfinal⟩

/-- Analyses that decide alike run alike. -/
theorem Alike.run (h : A.Alike B rel) (hst : rel s t) {fuel : Nat} (hrun : A.run p fuel q s = (o, q', s')) :
    ∃ t', B.run p fuel q t = (o, q', t') ∧ rel s' t' := by
  induction fuel generalizing q s t with
  | zero =>
    obtain ⟨rfl, rfl, rfl⟩ : .halted .exhausted = o ∧ q = q' ∧ s = s' := by simpa [Analysis.run] using hrun
    exact ⟨t, rfl, hst⟩
  | succ fuel ih =>
    cases hiter : A.iterate p q s with
    | stop o₁ q₁ s₁ =>
      rw [run_succ_of_stop hiter] at hrun
      obtain ⟨rfl, rfl, rfl⟩ : o₁ = o ∧ q₁ = q' ∧ s₁ = s' := by simpa using hrun
      obtain ⟨t', hstop, hrel⟩ := h.iterate_stop hst hiter
      exact ⟨t', run_succ_of_stop hstop fuel, hrel⟩
    | next q₁ s₁ =>
      rw [run_succ_of_next hiter] at hrun
      obtain ⟨t₁, hnext, hrel⟩ := h.iterate_next hst hiter
      rw [run_succ_of_next hnext]
      exact ih hrel hrun

end Analysis

end BytecodeFlow
