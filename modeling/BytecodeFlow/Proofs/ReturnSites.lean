import BytecodeFlow.Proofs.Returns
import BytecodeFlow.Proofs.StepRelation

/-! # Where backward steps enter callees

A step into a callee is looked for along every edge that leads to the traced node, and the label of the edge plays no
part: what counts is that the callee's exit, once expanded, lies below the state at the node. So a callee can also be
entered from an exception handler. It is entered from return sites only, as long as the other edges come from nodes
whose callees leave nothing below that state; the stack alone may show this.
-/
namespace BytecodeFlow

namespace Backtracer

variable {S P V : Type} [DecidableEq S] [DecidableEq P] [Located S] [Observable S V] [Domain S] [Domain V]
  {B : Backtracer S P V} {p : P} {t u : TracedState S} {ts us : List (TracedState S)} {n : NodeId}

/-- The state is at the exit of a callee of the node that explains the traced value. -/
def EntersFrom (B : Backtracer S P V) (p : P) (t : TracedState S) (n : NodeId) (u : TracedState S) : Prop :=
  ∃ parent current d id exit, (B.cache.reachedOf t.block).firstAt? n = some parent ∧
    (B.cache.reachedOf t.block).firstAt? t.site.node = some current ∧ (∀ j, t.site.place ≠ .var j) ∧
    d ∈ B.graph.knownCalls n ∧ B.Enters p t parent current d id exit ∧
    u = ⟨⟨t.site.place, exit⟩, id, ⟨d.2.target, t.block, parent⟩ :: t.calls⟩

/-- No exit of a callee of the node, once expanded, lies below the state at the traced node. -/
def Uncovered (B : Backtracer S P V) (t : TracedState S) (n : NodeId) : Prop :=
  ∀ parent current d id exit returned expanded, (B.cache.reachedOf t.block).firstAt? n = some parent →
    (B.cache.reachedOf t.block).firstAt? t.site.node = some current → d ∈ B.graph.knownCalls n →
    B.graph.returnExit? d.2.target = some exit → (B.cache.reachedOf id).firstAt? exit = some returned →
    B.expand parent returned d.1.target d.2 = .ok expanded →
    Domain.le (relocate (location current) expanded) current = false

theorem not_entersFrom (h : B.Uncovered t n) : ¬ B.EntersFrom p t n u := by
  rintro ⟨parent, current, d, id, exit, hparent, hcurrent, _, hd, henters, _⟩
  obtain ⟨returned, expanded, hreturned, _, hexpand, hle⟩ := henters.explains
  have hnot := h parent current d id exit returned expanded hparent hcurrent hd henters.returns hreturned hexpand
  exact Bool.false_ne_true (hnot.symm.trans hle)

/-- An edge adds to the calls exactly by entering the callees of its source. -/
theorem mem_edgeSteps_longer {e : Edge} (h : (B.edgeSteps p t e).result = .ok us) :
    u ∈ us ∧ t.calls.length < u.calls.length ↔ B.EntersFrom p t e.source u := by
  rcases edgeSteps_eq_ok h with ⟨hnone, rfl⟩ | ⟨parent, steps, _, hparent, hsteps, _, rfl⟩
  · constructor
    · rintro ⟨hu, _⟩
      cases hu
    · rintro ⟨parent, _, _, _, _, hparent, _⟩
      cases hnone.symm.trans hparent
  · rw [List.mem_append]
    constructor
    · rintro ⟨hu | hu, hlonger⟩
      · obtain ⟨current, d, id, exit, hrest⟩ := (mem_entered hsteps).1 hu
        exact ⟨parent, current, d, id, exit, hparent, hrest⟩
      · obtain ⟨l, _, _, rfl⟩ := mem_statesFor.1 hu
        exact absurd hlonger (Nat.lt_irrefl _)
    · rintro ⟨parent', current, d, id, exit, hparent', hrest⟩
      obtain rfl : parent = parent' := Option.some.inj (hparent.symm.trans hparent')
      refine ⟨.inl ((mem_entered hsteps).2 ⟨current, d, id, exit, hrest⟩), ?_⟩
      rw [hrest.2.2.2.2]
      exact Nat.lt_succ_self _

theorem mem_backtrace_longer (h : (B.backtrace p t).result = .ok ts) :
    u ∈ ts ∧ t.calls.length < u.calls.length ↔
      ∃ e ∈ B.graph.enteringIntraprocedural t.site.node, B.EntersFrom p t e.source u := by
  rw [mem_backtrace h]
  constructor
  · rintro ⟨hstep, hlonger⟩
    cases hstep with
    | edge => exact absurd hlonger (Nat.lt_irrefl _)
    | callee he hparent hcurrent hvar hd henters =>
      exact ⟨_, he, _, _, _, _, _, hparent, hcurrent, hvar, hd, henters, rfl⟩
    | remembered _ _ hcalls =>
      rw [hcalls, List.length_cons] at hlonger
      exact absurd hlonger (Nat.not_lt.2 (Nat.le_succ _))
    | cached => exact absurd hlonger (Nat.not_lt_zero _)
  · rintro ⟨e, he, parent, current, d, id, exit, hparent, hcurrent, hvar, hd, henters, rfl⟩
    exact ⟨.callee he hparent hcurrent hvar hd henters, Nat.lt_succ_self _⟩

/-- The successors with more calls are those that enter the callees of an edge's source, and every edge contributes
them whatever its label is. If no exit of a callee is covered along the edges without an invocation, then the callees
are entered along invocations only. -/
theorem callees_entered_along_edges (h : (B.backtrace p t).result = .ok ts) :
    (∀ u, u ∈ ts ∧ t.calls.length < u.calls.length ↔
      ∃ e ∈ B.graph.enteringIntraprocedural t.site.node, B.EntersFrom p t e.source u) ∧
    (∀ e ∈ B.graph.enteringIntraprocedural t.site.node, ∃ us, (B.edgeSteps p t e).result = .ok us ∧
      ∀ u, u ∈ us ∧ t.calls.length < u.calls.length ↔ B.EntersFrom p t e.source u) ∧
    ((∀ e ∈ B.graph.enteringIntraprocedural t.site.node, e.label.isInvoke = false → B.Uncovered t e.source) →
      (∀ u ∈ ts, t.calls.length < u.calls.length →
        ∃ e ∈ B.graph.enteringIntraprocedural t.site.node, e.label.isInvoke = true ∧ B.EntersFrom p t e.source u) ∧
      ∀ e ∈ B.graph.enteringIntraprocedural t.site.node, e.label.isInvoke = false →
        ∀ us, (B.edgeSteps p t e).result = .ok us → ∀ u ∈ us, u.calls.length ≤ t.calls.length) := by
  refine ⟨fun u => mem_backtrace_longer h, ?_, ?_⟩
  · intro e he
    obtain ⟨inside, outside, hinside, _⟩ := backtrace_eq_ok h
    obtain ⟨us, hus⟩ := Logged.exists_ok_of_flatten hinside he
    exact ⟨us, hus, fun u => mem_edgeSteps_longer hus⟩
  · intro huncovered
    constructor
    · intro u hu hlonger
      obtain ⟨e, he, henters⟩ := (mem_backtrace_longer h).1 ⟨hu, hlonger⟩
      cases hinvoke : e.label.isInvoke with
      | true => exact ⟨e, he, hinvoke, henters⟩
      | false => exact absurd henters (not_entersFrom (huncovered e he hinvoke))
    · intro e he hinvoke us hus u hu
      by_contra hlonger
      exact not_entersFrom (huncovered e he hinvoke) ((mem_edgeSteps_longer hus).1 ⟨hu, Nat.not_le.1 hlonger⟩)

end Backtracer

/-- Where the results and what is beneath the arguments do not fit below the stack at the traced node, no callee is
entered. -/
theorem Backtracer.uncovered_of_height {V P : Type} [JoinDomain V] [DecidableEq V]
    {B : Backtracer (MachineState V) P V} {t : TracedState (MachineState V)} {n : NodeId}
    (hexpand : ∀ s x n c, B.expand s x n c = s.expand x c)
    (h : ∀ parent ∈ (B.cache.reachedOf t.block).firstAt? n,
      ∀ current ∈ (B.cache.reachedOf t.block).firstAt? t.site.node, ∀ d ∈ B.graph.knownCalls n,
        current.frame.stack.length <
          d.2.target.descriptor.resultSlots + (parent.frame.stack.length - d.2.target.parameterSlots)) :
    B.Uncovered t n := by
  intro parent current d id exit returned expanded hparent hcurrent hd _ _ hexpanded
  rw [hexpand] at hexpanded
  obtain ⟨hresult, _, rfl⟩ := MachineState.expand_eq_ok.1 hexpanded
  rw [Bool.eq_false_iff]
  intro hle
  have hheight := MachineState.length_stack_le hle
  have hlow := h parent hparent current hcurrent d hd
  simp only [relocate, List.length_append, List.length_take, List.length_drop] at hheight
  omega

/-! ### A handler from which a callee is entered, and one from which none is -/

namespace Interpreter

def fetcher : Method := ⟨"Main", "fetch", ⟨[], some (.base .int)⟩, true⟩

def catching : Interpreter (Powerset Nat) := { counting with caught := .ofList [7, 9] }

def fetcherCode : List Directive :=
  [.method creator, .method fetcher,
    .instruction fetcher (some 0) (some 1) (.getStatic "A" false),
    .instruction fetcher (some 1) (some (-1)) (.ret 1)]

def guardedGraph : FlowGraph :=
  (FlowGraph.assemble (fetcherCode ++ [
    .invoke creator (some 0) (some 1) .static fetcher,
    .handler creator (some 0) (some 5),
    .instruction creator (some 1) (some (-1)) (.ret 0),
    .instruction creator (some 5) (some (-1)) (.ret 0)])).graph

/-- The same, with another field beneath the result. -/
def loadedGraph : FlowGraph :=
  (FlowGraph.assemble (fetcherCode ++ [
    .instruction creator (some 0) (some 1) (.getStatic "B" false),
    .invoke creator (some 1) (some 2) .static fetcher,
    .handler creator (some 1) (some 5),
    .instruction creator (some 2) (some (-1)) (.ret 0),
    .instruction creator (some 5) (some (-1)) (.ret 0)])).graph

def caughtSession (g : FlowGraph) : Session (MachineState (Powerset Nat)) Unit :=
  ((catching.joining g .initial).analyze 10 creator ⟨3, .empty, labelledFields⟩ ()).final (.start .never)

def caughtTracer (g : FlowGraph) : Backtracer (MachineState (Powerset Nat)) Unit (Powerset Nat) :=
  (catching.joining g .initial).backtracer (caughtSession g).cache .empty fun _ _ => false

def creatorTop (n : NodeId) : TracedState (MachineState (Powerset Nat)) := ⟨⟨.stack 0, n⟩, ⟨creator, 0⟩, []⟩

/-- The fetched field is entered from the return site, and not from the handler. -/
theorem callees_entered_along_edges_loaded :
    (∃ ts, ((caughtTracer loadedGraph).backtrace () (creatorTop 9)).result = .ok ts ∧
      ∃ u ∈ ts, 0 < u.calls.length ∧ ∃ e ∈ loadedGraph.enteringIntraprocedural 9, e.label.isInvoke = true ∧
        (caughtTracer loadedGraph).EntersFrom () (creatorTop 9) e.source u) ∧
    ∃ ts, ((caughtTracer loadedGraph).backtrace () (creatorTop 10)).result = .ok ts ∧
      loadedGraph.enteringIntraprocedural 10 = [⟨5, 8, 10, .handler⟩] ∧ ∀ u ∈ ts, u.calls.length = 0 := by
  have hsite : loadedGraph.enteringIntraprocedural 9 = [⟨3, 8, 9, .instruction (.invoke .static fetcher)⟩] := by
    decide +kernel
  have hhandler : loadedGraph.enteringIntraprocedural 10 = [⟨5, 8, 10, .handler⟩] := by decide +kernel
  have hreturned : ((caughtTracer loadedGraph).backtrace () (creatorTop 9)).result.toOption.any
      (·.any (0 < ·.calls.length)) = true := by
    decide +kernel
  have hcaught : ((caughtTracer loadedGraph).backtrace () (creatorTop 10)).result.isOk = true := by decide +kernel
  constructor
  · cases hts : ((caughtTracer loadedGraph).backtrace () (creatorTop 9)).result with
    | error f =>
      rw [hts] at hreturned
      cases hreturned
    | ok ts =>
      rw [hts] at hreturned
      obtain ⟨u, hu, hlonger⟩ := List.any_eq_true.1 hreturned
      have huncovered : ∀ e ∈ loadedGraph.enteringIntraprocedural 9, e.label.isInvoke = false →
          (caughtTracer loadedGraph).Uncovered (creatorTop 9) e.source := by
        rw [hsite]
        simp [Label.isInvoke, Instruction.isInvoke, Instruction.invoke]
      refine ⟨ts, rfl, u, hu, of_decide_eq_true hlonger, ?_⟩
      exact ((Backtracer.callees_entered_along_edges hts).2.2 huncovered).1 u hu (of_decide_eq_true hlonger)
  · cases hts : ((caughtTracer loadedGraph).backtrace () (creatorTop 10)).result with
    | error f =>
      rw [hts] at hcaught
      cases hcaught
    | ok ts =>
      have huncovered : ∀ e ∈ loadedGraph.enteringIntraprocedural 10, e.label.isInvoke = false →
          (caughtTracer loadedGraph).Uncovered (creatorTop 10) e.source := by
        rw [hhandler]
        intro e he _
        rw [List.mem_singleton.1 he]
        -- the caller's stack holds a slot, the callee adds one, and the handler's stack has only one
        exact Backtracer.uncovered_of_height (fun _ _ _ _ => rfl) (by decide +kernel)
      refine ⟨ts, rfl, hhandler, fun u hu => ?_⟩
      by_contra hlonger
      obtain ⟨e, he, hinvoke, _⟩ :=
        ((Backtracer.callees_entered_along_edges hts).2.2 huncovered).1 u hu (Nat.pos_of_ne_zero hlonger)
      change e ∈ loadedGraph.enteringIntraprocedural 10 at he
      rw [hhandler, List.mem_singleton] at he
      subst he
      cases hinvoke

/-- The fetched field is entered from the handler, to which no invocation leads. -/
theorem callee_entered_from_handler :
    guardedGraph.Built ∧
      (catching.joining guardedGraph .initial).Visited (fun _ => True) (caughtSession guardedGraph) ∧
      guardedGraph.enteringIntraprocedural 9 = [⟨4, 3, 9, .handler⟩] ∧
      ((caughtTracer guardedGraph).backtrace () (creatorTop 9)).result.toOption =
        some [⟨⟨.stack 0, 4⟩, ⟨fetcher, 0⟩, [⟨fetcher, ⟨creator, 0⟩, ⟨3, .empty, labelledFields⟩⟩]⟩] := by
  refine ⟨FlowGraph.built_assemble _, .analyze _ _ _ _ (.start trivial), ?_, ?_⟩
  · decide +kernel
  · decide +kernel

end Interpreter

end BytecodeFlow
