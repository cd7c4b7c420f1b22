import BytecodeFlow.Proofs.Exploration
import BytecodeFlow.Proofs.Resolution
import BytecodeFlow.Trace.Tracer

/-! # The course of a trace

A trace that nothing aborts takes the same backward steps whatever its session holds, and adds the same
sources to the witness graph that it finds there. It ends by itself, by a fault of a backward step, or because
its bound is too small.
-/
namespace BytecodeFlow

/-- Records the sources of several sites, one after the other. -/
def Witness.addAll (w : Witness) (steps : List (Site × List Site)) : Witness :=
  steps.foldl (fun w s => w.addSources s.1 s.2) w

namespace Backtracer

variable {S P V : Type} [DecidableEq S] [DecidableEq P] [Located S] [Observable S V] [Domain S] [Domain V]
  {B : Backtracer S P V} {p : P} {t : TracedState S} {place : MemoryLocation} {n : NodeId} {σ : TraceSession}
  {fuel : Nat}

def start (B : Backtracer S P V) (place : MemoryLocation) (n : NodeId) :
    Search (OrderedSet (TracedState S)) (TracedState S) :=
  Search.addAll ⟨.empty, .empty .depthFirst⟩ (B.initial place n)

def explored (B : Backtracer S P V) (fuel : Nat) (place : MemoryLocation) (n : NodeId) (p : P)
    (σ : TraceSession) : List (TracedState S) :=
  (B.analysis.explored p fuel (B.start place n) σ).map Prod.fst

def ended (B : Backtracer S P V) (place : MemoryLocation) (n : NodeId) (o : Outcome)
    (q : Search (OrderedSet (TracedState S)) (TracedState S)) (σ : TraceSession) :
    EStateM.Result Halt TraceSession (BackwardTrace S) :=
  let roots := ((B.initial place n).map (·.site)).eraseDups
  let σ := σ.noteAll (q.notices o)
  match o with
  | .completed => .ok ⟨roots, q.reached, σ.witness, false⟩ { σ with witness := .empty }
  | .aborted => .ok ⟨roots, q.reached, σ.witness, true⟩ { σ with witness := .empty }
  | .halted h => .error h σ

theorem trace_eq {o : Outcome} {q : Search (OrderedSet (TracedState S)) (TracedState S)} {τ : TraceSession}
    (h : B.analysis.run p fuel (B.start place n) σ = (o, q, τ)) :
    B.trace fuel place n p σ = B.ended place n o q τ := by
  change (let r := B.analysis.run p fuel (B.start place n) σ; B.ended place n r.1 r.2.1 r.2.2) = _
  rw [h]

omit [DecidableEq P] [Located S] [Domain S] in
theorem awaits_start : (B.start place n).Awaits t ↔ t ∈ B.initial place n := by
  unfold start
  rw [Search.awaits_addAll]
  exact or_iff_right (OrderedSet.not_mem_empty t)

omit [DecidableEq P] [Located S] [Domain S] in
theorem reaches_start : (B.start place n).Reaches t ↔ t ∈ B.initial place n := by
  unfold start
  rw [Search.reaches_addAll]
  exact or_iff_right (OrderedSet.not_mem_empty t)

/-- A backward step that succeeds records its sources. -/
theorem recordStep_ok {ts : List (TracedState S)} (h : (B.backtrace p t).result = .ok ts) (σ : TraceSession) :
    ∃ τ, B.recordStep t p σ = .ok ts τ ∧ τ.signal = σ.signal ∧
      τ.witness = σ.witness.addSources t.site (ts.map (·.site)) := by
  unfold recordStep
  rcases hb : B.backtrace p t with ⟨_ | us, notices⟩
  · simp [hb] at h
  · obtain rfl : us = ts := by simpa [hb] using h
    exact ⟨_, rfl, rfl, rfl⟩

/-- A backward step that fails records nothing. -/
theorem recordStep_error {f : Fault} (h : (B.backtrace p t).result = .error f) (σ : TraceSession) :
    ∃ τ, B.recordStep t p σ = .error (.fault f) τ ∧ τ.signal = σ.signal ∧ τ.witness = σ.witness := by
  unfold recordStep
  rcases hb : B.backtrace p t with ⟨g | us, notices⟩
  · obtain rfl : g = f := by simpa [hb] using h
    exact ⟨_, rfl, rfl, rfl⟩
  · simp [hb] at h

theorem result_of_recordStep {ts : List (TracedState S)} {τ : TraceSession}
    (h : B.recordStep t p σ = .ok ts τ) : (B.backtrace p t).result = .ok ts := by
  cases hback : (B.backtrace p t).result with
  | error f =>
    obtain ⟨_, hrecord, _⟩ := recordStep_error hback σ
    cases hrecord.symm.trans h
  | ok us =>
    obtain ⟨_, hrecord, _⟩ := recordStep_ok hback σ
    rw [(EStateM.Result.ok.inj (hrecord.symm.trans h)).1]

theorem result_of_recordStep_error {f : Fault} {τ : TraceSession}
    (h : B.recordStep t p σ = .error (.fault f) τ) : (B.backtrace p t).result = .error f := by
  cases hback : (B.backtrace p t).result with
  | error g =>
    obtain ⟨_, hrecord, _⟩ := recordStep_error hback σ
    cases hrecord.symm.trans h
    rfl
  | ok us =>
    obtain ⟨_, hrecord, _⟩ := recordStep_ok hback σ
    cases hrecord.symm.trans h

theorem recordStep_ne_exhausted (t : TracedState S) (p : P) (σ τ : TraceSession) :
    B.recordStep t p σ ≠ .error .exhausted τ := by
  intro h
  cases hback : (B.backtrace p t).result with
  | error f =>
    obtain ⟨_, hrecord, _⟩ := recordStep_error hback σ
    cases hrecord.symm.trans h
  | ok us =>
    obtain ⟨_, hrecord, _⟩ := recordStep_ok hback σ
    cases hrecord.symm.trans h

theorem poll_quiet (hσ : σ.signal.Quiet) :
    ∃ σ₁, B.analysis.poll σ = (false, σ₁) ∧ σ₁.signal.Quiet ∧ σ₁.witness = σ.witness := by
  refine ⟨(B.analysis.poll σ).2, ?_, hσ.poll.2, rfl⟩
  rw [← hσ.poll.1]
  rfl

/-- From every session that nothing aborts the run ends in this way, and adds these sources to what the session
has recorded. -/
structure Course (B : Backtracer S P V) (p : P) (fuel : Nat)
    (q : Search (OrderedSet (TracedState S)) (TracedState S)) (o : Outcome)
    (q' : Search (OrderedSet (TracedState S)) (TracedState S)) (steps : List (Site × List Site)) : Prop where
  outcome : o = .completed ∨ (∃ f, o = .halted (.fault f)) ∨ o = .halted .exhausted
  run : ∀ σ : TraceSession, σ.signal.Quiet → ∃ τ, B.analysis.run p fuel q σ = (o, q', τ) ∧ τ.signal.Quiet ∧
    τ.witness = σ.witness.addAll steps

theorem exists_course (B : Backtracer S P V) (p : P) (fuel : Nat)
    (q : Search (OrderedSet (TracedState S)) (TracedState S)) : ∃ o q' steps, B.Course p fuel q o q' steps := by
  induction fuel generalizing q with
  | zero => exact ⟨_, q, [], .inr (.inr rfl), fun σ hσ => ⟨σ, rfl, hσ, rfl⟩⟩
  | succ fuel ih =>
    cases hpop : q.waiting.pop? with
    | none =>
      refine ⟨.completed, q, [], .inl rfl, fun σ hσ => ?_⟩
      obtain ⟨σ₁, hpolled, hσ₁, hwitness⟩ := poll_quiet (B := B) hσ
      have hstop := Analysis.iterate_of_empty (p := p) hpolled hpop
      exact ⟨σ₁, Analysis.run_succ_of_stop hstop fuel, hσ₁, hwitness⟩
    | some a =>
      obtain ⟨t, w⟩ := a
      cases hback : (B.backtrace p t).result with
      | error f =>
        refine ⟨.halted (.fault f), ⟨q.reached, w⟩, [], .inr (.inl ⟨f, rfl⟩), fun σ hσ => ?_⟩
        obtain ⟨σ₁, hpolled, hσ₁, hwitness⟩ := poll_quiet (B := B) hσ
        obtain ⟨τ, hrecord, hsignal, hτ⟩ := recordStep_error hback σ₁
        have hstop := Analysis.iterate_of_error (A := B.analysis) (p := p) hpolled hpop hrecord
        exact ⟨τ, Analysis.run_succ_of_stop hstop fuel, hsignal ▸ hσ₁, hτ.trans hwitness⟩
      | ok ts =>
        obtain ⟨o, q', steps, hcourse⟩ := ih (Search.incorporateAll .contained p ⟨q.reached, w⟩ ts)
        refine ⟨o, q', (t.site, ts.map (·.site)) :: steps, hcourse.outcome, fun σ hσ => ?_⟩
        obtain ⟨σ₁, hpolled, hσ₁, hwitness⟩ := poll_quiet (B := B) hσ
        obtain ⟨σ₂, hrecord, hsignal, hσ₂⟩ := recordStep_ok hback σ₁
        have hnext := Analysis.iterate_of_ok (A := B.analysis) (p := p) hpolled hpop hrecord
        obtain ⟨τ, hrun, hquiet, hτ⟩ := hcourse.run σ₂ (hsignal ▸ hσ₁)
        refine ⟨τ, (Analysis.run_succ_of_next hnext fuel).trans hrun, hquiet, ?_⟩
        rw [hτ, hσ₂, hwitness]
        rfl

end Backtracer

end BytecodeFlow
