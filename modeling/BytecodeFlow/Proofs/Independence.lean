import BytecodeFlow.Proofs.MachineAnalysis
import BytecodeFlow.Proofs.Refinement
import BytecodeFlow.Proofs.Tracing

/-! # Traces in one session

Which faults, roots and reached states a trace returns does not depend on the traces before it. Its witness
graph does: a trace that halts leaves behind what it has recorded, and the next trace records on top of it. After
a trace that returned a result nothing is left, and the next one returns what it would return in a new session.
-/
namespace BytecodeFlow

namespace Backtracer

variable {S P V : Type} [DecidableEq S] [DecidableEq P] [Located S] [Observable S V] [Domain S] [Domain V]
  {B : Backtracer S P V} {signal : AbortSignal} {clean : Bool} {σ : TraceSession}

def result (B : Backtracer S P V) (fuel : Nat) (place : MemoryLocation) (n : NodeId) (p : P)
    (σ : TraceSession) : Except Halt (BackwardTrace S) :=
  Effect.outcome (B.trace fuel place n p) σ

def after (B : Backtracer S P V) (fuel : Nat) (place : MemoryLocation) (n : NodeId) (p : P)
    (σ : TraceSession) : TraceSession :=
  Effect.final (B.trace fuel place n p) σ

/-- The sessions that arise by traces, with whether the last trace returned a result, if there was one. -/
inductive Used (B : Backtracer S P V) (signal : AbortSignal) : Bool → TraceSession → Prop
  | start : Used B signal true (.start signal)
  | trace {clean : Bool} {σ : TraceSession} (fuel : Nat) (place : MemoryLocation) (n : NodeId) (p : P) :
    Used B signal clean σ → Used B signal (B.result fuel place n p σ).isOk (B.after fuel place n p σ)

section Course

variable {p : P} {fuel : Nat} {place : MemoryLocation} {n : NodeId} {steps : List (Site × List Site)}
  {q : Search (OrderedSet (TracedState S)) (TracedState S)}

/-- A run that completes gives a result, and what was recorded is handed over. -/
theorem Course.completed (h : B.Course p fuel (B.start place n) .completed q steps) (hσ : σ.signal.Quiet) :
    B.result fuel place n p σ = .ok ⟨((B.initial place n).map (·.site)).eraseDups, q.reached,
        σ.witness.addAll steps, false⟩ ∧
      (B.after fuel place n p σ).signal.Quiet ∧ (B.after fuel place n p σ).witness = .empty := by
  obtain ⟨τ, hrun, hquiet, hτ⟩ := h.run σ hσ
  obtain ⟨hresult, hafter⟩ := Effect.outcome_final_of_ok (trace_eq hrun)
  refine ⟨?_, ?_, ?_⟩
  · rw [← hτ]
    exact hresult
  · rw [after, hafter]
    exact hquiet
  · rw [after, hafter]

/-- A run that halts gives no result, and what was recorded is kept. -/
theorem Course.halted {e : Halt} (h : B.Course p fuel (B.start place n) (.halted e) q steps)
    (hσ : σ.signal.Quiet) :
    B.result fuel place n p σ = .error e ∧ (B.after fuel place n p σ).signal.Quiet ∧
      (B.after fuel place n p σ).witness = σ.witness.addAll steps := by
  obtain ⟨τ, hrun, hquiet, hτ⟩ := h.run σ hσ
  obtain ⟨hresult, hafter⟩ := Effect.outcome_final_of_error (trace_eq hrun)
  refine ⟨hresult, ?_, ?_⟩
  · rw [after, hafter]
    exact hquiet
  · rw [after, hafter]
    exact hτ

end Course

theorem exists_completed_or_halted (B : Backtracer S P V) (fuel : Nat) (place : MemoryLocation) (n : NodeId)
    (p : P) : ∃ q steps, B.Course p fuel (B.start place n) .completed q steps ∨
      ∃ e, B.Course p fuel (B.start place n) (.halted e) q steps := by
  obtain ⟨o, q, steps, hcourse⟩ := B.exists_course p fuel (B.start place n)
  refine ⟨q, steps, ?_⟩
  rcases hcourse.outcome with rfl | ⟨f, rfl⟩ | rfl
  · exact .inl hcourse
  · exact .inr ⟨_, hcourse⟩
  · exact .inr ⟨_, hcourse⟩

/-- Nothing aborts the next trace, and after a result nothing is recorded. -/
theorem Used.quiet (h : B.Used signal clean σ) (hsignal : signal.Quiet) :
    σ.signal.Quiet ∧ (clean = true → σ.witness = .empty) := by
  induction h with
  | start => exact ⟨hsignal, fun _ => rfl⟩
  | trace fuel place n p _ ih =>
    obtain ⟨q, steps, hcourse | ⟨e, hcourse⟩⟩ := B.exists_completed_or_halted fuel place n p
    · obtain ⟨_, hquiet, hwitness⟩ := hcourse.completed ih.1
      exact ⟨hquiet, fun _ => hwitness⟩
    · obtain ⟨hresult, hquiet, _⟩ := hcourse.halted ih.1
      refine ⟨hquiet, fun hclean => ?_⟩
      rw [hresult] at hclean
      cases hclean

/-- A trace after any number of others gives the same fault, or the same roots and reached states, as in a new
session. Its witness graph is what the new session's trace records, on top of what is left from before; after a
trace with a result nothing is left. -/
theorem result_of_used (hsignal : signal.Quiet) (hσ : B.Used signal clean σ) (fuel : Nat)
    (place : MemoryLocation) (n : NodeId) (p : P) :
    (clean = true → B.result fuel place n p σ = B.result fuel place n p (.start signal)) ∧
      (∀ e, B.result fuel place n p σ = .error e ↔ B.result fuel place n p (.start signal) = .error e) ∧
      ∀ r, B.result fuel place n p (.start signal) = .ok r →
        ∃ steps, r.witness = Witness.empty.addAll steps ∧
          B.result fuel place n p σ = .ok { r with witness := σ.witness.addAll steps } := by
  obtain ⟨hquiet, hempty⟩ := hσ.quiet hsignal
  obtain ⟨q, steps, hcourse | ⟨e, hcourse⟩⟩ := B.exists_completed_or_halted fuel place n p
  · obtain ⟨hfresh, _⟩ := hcourse.completed (σ := .start signal) hsignal
    obtain ⟨hlater, _⟩ := hcourse.completed hquiet
    refine ⟨fun hclean => ?_, fun e => ?_, fun r hr => ⟨steps, ?_, ?_⟩⟩
    · rw [hlater, hfresh, hempty hclean]
      rfl
    · simp [hlater, hfresh]
    · obtain rfl := Except.ok.inj (hfresh.symm.trans hr)
      rfl
    · obtain rfl := Except.ok.inj (hfresh.symm.trans hr)
      exact hlater
  · obtain ⟨hfresh, _⟩ := hcourse.halted (σ := .start signal) hsignal
    obtain ⟨hlater, _⟩ := hcourse.halted hquiet
    refine ⟨fun _ => hlater.trans hfresh.symm, fun e => ?_, fun r hr => ?_⟩
    · rw [hlater, hfresh]
    · cases hfresh.symm.trans hr

end Backtracer

namespace Interpreter

/-! ### A trace that fails after its first step -/

/-- An instance method, which takes its receiver as an argument. -/
def walker : Method := ⟨"Main", "walk", ⟨[], some (.base .int)⟩, false⟩

def reader : Method := ⟨"Main", "read", ⟨[], some (.base .int)⟩, true⟩

/-- The walker calls itself without a receiver on the stack; the reader returns a field. -/
def walkerGraph : FlowGraph :=
  (FlowGraph.assemble [.method walker, .method reader,
    .invoke walker (some 0) (some 1) .static walker,
    .instruction walker (some 1) (some (-1)) (.ret 1),
    .instruction reader (some 0) (some 1) (.getStatic "A" false),
    .instruction reader (some 1) (some (-1)) (.ret 1)]).graph

def walkerAnalysis : Interprocedural (MachineState (Powerset Nat)) Unit :=
  counting.interprocedural walkerGraph .join .initial

def walkerTracer : Backtracer (MachineState (Powerset Nat)) Unit (Powerset Nat) :=
  walkerAnalysis.backtracer
    ((walkerAnalysis.analyze 10 reader ⟨6, .empty, .ofList [("A", .singleton 7)]⟩ ()).final
      ((walkerAnalysis.analyze 10 walker ⟨3, ⟨[.singleton 5], []⟩, .empty⟩ ()).final
        (.start .never))).cache .empty fun _ _ => false

def walkedSession : TraceSession := walkerTracer.after 10 (.stack 0) 1 () (.start .never)

theorem used_walked : walkerTracer.Used .never false walkedSession := by
  have hfailed : (walkerTracer.result 10 (.stack 0) 1 () (.start .never)).isOk = false := by decide +kernel
  rw [← hfailed]
  exact .trace 10 (.stack 0) 1 () .start

/-- The reader's result is traced for the second time as in a new session, though not for the first time. -/
theorem result_of_used_reader :
    ∃ σ, σ = walkerTracer.after 10 (.stack 0) 8 () walkedSession ∧ walkerTracer.Used .never true σ ∧
      walkerTracer.result 10 (.stack 0) 8 () σ = walkerTracer.result 10 (.stack 0) 8 () (.start .never) := by
  have hok : (walkerTracer.result 10 (.stack 0) 8 () walkedSession).isOk = true := by decide +kernel
  have hused : walkerTracer.Used .never true (walkerTracer.after 10 (.stack 0) 8 () walkedSession) := by
    rw [← hok]
    exact .trace 10 (.stack 0) 8 () used_walked
  have hquiet : AbortSignal.never.Quiet := trivial
  exact ⟨_, rfl, hused, (Backtracer.result_of_used hquiet hused 10 (.stack 0) 8 ()).1 rfl⟩

/-- What the failed trace recorded shows in the witness graph of the next one. -/
theorem result_not_fresh_walked :
    walkerTracer.Used .never false walkedSession ∧
      (walkerTracer.result 10 (.stack 0) 8 () (.start .never)).toOption.map (·.witness.entries) =
        some [(⟨.stack 0, 8⟩, [⟨.static "A", 6⟩]), (⟨.static "A", 6⟩, [])] ∧
      (walkerTracer.result 10 (.stack 0) 8 () walkedSession).toOption.map (·.witness.entries) =
        some [(⟨.stack 0, 1⟩, [⟨.stack 0, 7⟩]), (⟨.stack 0, 7⟩, []), (⟨.stack 0, 8⟩, [⟨.static "A", 6⟩]),
          (⟨.static "A", 6⟩, [])] ∧
      walkerTracer.result 10 (.stack 0) 8 () walkedSession ≠
        walkerTracer.result 10 (.stack 0) 8 () (.start .never) := by
  have hfresh : (walkerTracer.result 10 (.stack 0) 8 () (.start .never)).toOption.map (·.witness.entries) =
      some [(⟨.stack 0, 8⟩, [⟨.static "A", 6⟩]), (⟨.static "A", 6⟩, [])] := by
    decide +kernel
  have hlater : (walkerTracer.result 10 (.stack 0) 8 () walkedSession).toOption.map (·.witness.entries) =
      some [(⟨.stack 0, 1⟩, [⟨.stack 0, 7⟩]), (⟨.stack 0, 7⟩, []), (⟨.stack 0, 8⟩, [⟨.static "A", 6⟩]),
        (⟨.static "A", 6⟩, [])] := by
    decide +kernel
  refine ⟨used_walked, hfresh, hlater, fun heq => ?_⟩
  rw [heq, hfresh] at hlater
  simp at hlater

end Interpreter

end BytecodeFlow
