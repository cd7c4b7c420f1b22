import BytecodeFlow.Proofs.CachedRuns
import BytecodeFlow.Proofs.Callers
import BytecodeFlow.Proofs.Termination

/-! # Tracing through finished results succeeds

A backward step fails if it has to reduce or expand a state that does not hold the arguments or the result of a
call, if it is asked for a heap field, or if the limits of the machine are exceeded. A cached state has been followed
along the invocations of its node, or over one of its calls; if all of these take the same number of slots, it holds
the arguments of all of them. Heap fields hold nothing that is traced.
-/
namespace BytecodeFlow

/-- Calls leave nodes with an invocation, and every invocation there pops the arguments of the target. -/
def FlowGraph.CallsPop (g : FlowGraph) : Prop :=
  ∀ e ∈ g.edges, ∀ c ∈ e.label.call?,
    (∃ e' ∈ g.leavingIntraprocedural e.source, e'.label.isInvoke = true) ∧
    ∀ e' ∈ g.leavingIntraprocedural e.source, ∀ i ∈ e'.label.instruction?, i.isInvoke = true →
      i.pops = c.target.parameterSlots

/-- At the node of a call there is an invocation, which pops the arguments of every call of the node. -/
theorem FlowGraph.CallsPop.invocation {g : FlowGraph} (h : g.CallsPop) {d : Edge × Call}
    (hd : d ∈ callsOf g.edges) :
    ∃ e ∈ g.leavingIntraprocedural d.1.source, ∃ i dispatch target, e.label = .instruction i ∧
      i.operation = .invoke dispatch target ∧
      ∀ d' ∈ callsOf g.edges, d'.1.source = d.1.source → i.pops = d'.2.target.parameterSlots := by
  have hcall : ∀ {d : Edge × Call}, d.1.label = .call d.2 → d.2 ∈ d.1.label.call? := by
    intro d hlabel
    simp [hlabel, Label.call?]
  obtain ⟨hedge, hlabel⟩ := mem_callsOf.1 hd
  obtain ⟨⟨e, he, hinvoke⟩, _⟩ := h d.1 hedge d.2 (hcall hlabel)
  obtain ⟨i, dispatch, target, hinstruction, hoperation⟩ := Label.instruction_of_isInvoke hinvoke
  refine ⟨e, he, i, dispatch, target, hinstruction, hoperation, fun d' hd' hsource => ?_⟩
  obtain ⟨hedge', hlabel'⟩ := mem_callsOf.1 hd'
  exact (h d'.1 hedge' d'.2 (hcall hlabel')).2 e (hsource ▸ he) i (by simp [hinstruction, Label.instruction?])
    (by simp [Instruction.isInvoke, hoperation])

/-! ### What has been followed -/

namespace Interprocedural

variable {S P : Type} [DecidableEq S] [DecidableEq P] [Located S] {A : Interprocedural S P}
  {nested : Runner S P} {s : S} {p : P} {e : Edge} {σ τ : Session S P} {l : List S}

/-- If the successors of a state have been found, every edge that leaves it has been followed. -/
theorem follow_of_leaving (h : A.transfer nested s p σ = .ok l τ)
    (he : e ∈ A.graph.leavingIntraprocedural (location s)) :
    ∃ ρ k ρ', A.follow nested s p e ρ = .ok k ρ' := by
  unfold transfer at h
  rw [Effect.bind_eq] at h
  split at h
  · rename_i parts τ' hparts
    obtain ⟨part, _, ρ, ρ', hpart⟩ := exists_of_forall₂ (Effect.forall₂_of_mapM_ok hparts) he
    rw [Effect.bind_eq] at hpart
    split at hpart
    · rename_i k ρ₁ hfollow
      exact ⟨ρ, k, ρ₁, hfollow⟩
    · cases hpart
  · cases h

omit [Located S] in
theorem reduce_of_resolve {d : Edge × Call} (h : A.resolve nested s p d.1 d.2 σ = .ok (some l) τ) :
    ∃ k, A.reduce s d.1.target d.2 = .ok k := by
  rw [resolve_eq] at h
  split at h
  · cases h
  · split at h
    · cases h
    · cases hreduce : A.reduce s d.1.target d.2 with
      | error f => simp [hreduce] at h
      | ok k => exact ⟨k, rfl⟩

/-- An invocation that has been followed was executed, or some known call was entered instead. -/
theorem along_or_reduce (hinvoke : e.label.isInvoke = true) (h : A.follow nested s p e σ = .ok l τ) :
    (∃ k, A.along s e p = .ok k) ∨
      ∃ d ∈ A.graph.knownCalls (location s), ∃ k, A.reduce s d.1.target d.2 = .ok k := by
  rw [follow_invoke A nested s p σ hinvoke] at h
  split at h
  · cases h
  · rename_i results τ' hresults
    split at h
    · cases halong : A.along s e p with
      | error f => simp [halong] at h
      | ok k => exact .inl ⟨k, rfl⟩
    · rename_i hentered
      rw [Bool.or_eq_true, not_or] at hentered
      cases hcalls : A.graph.knownCalls (location s) with
      | nil => exact absurd (by simp [apart, hcalls]) hentered.1
      | cons d ds =>
        rw [hcalls] at hresults
        obtain ⟨r, hr, _, _, hresolve⟩ :=
          exists_of_forall₂ (Effect.forall₂_of_mapM_ok hresults) List.mem_cons_self
        cases r with
        | none => exact absurd (List.any_eq_true.2 ⟨none, hr, rfl⟩) hentered.2
        | some r => exact .inr ⟨d, List.mem_cons_self, reduce_of_resolve hresolve⟩

end Interprocedural

namespace MachineState

variable {V P : Type} [Inhabited V] [JoinDomain V] [DecidableEq V] [DecidableEq P] {I : Interpreter V}
  {g : FlowGraph} {O : Operators (MachineState V) P} {options : Options} {limits : Limits} {m : Method} {p : P}
  {k s : MachineState V} {b : Block (MachineState V)}

omit [JoinDomain V] [DecidableEq V] in
theorem pops_le_of_along {e : Edge} {i : Instruction} {dispatch : Dispatch} {target : Method}
    {l : List (MachineState V)} (hlabel : e.label = .instruction i)
    (hoperation : i.operation = .invoke dispatch target) (h : s.along I e limits = .ok l) :
    i.pops ≤ s.frame.stack.length := by
  unfold along at h
  simp only [hlabel, execute, hoperation] at h
  cases hexecute : s.withFrame (s.frame.combine i (I.invoke target)) with
  | error f => simp [hexecute] at h
  | ok t =>
    obtain ⟨f, hcombine, _⟩ := withFrame_eq_ok.1 hexecute
    exact (Frame.combine_eq_ok.1 hcombine).1

/-- A state of a computed block holds the arguments of every call at its node. -/
theorem arguments_of_computed (hcalls : g.CallsPop) (hO : O = .sep ∨ O = .join)
    (h : (I.interprocedural g O options limits).Computed m k p b) (hs : s ∈ b.reached.all.toList) {d : Edge × Call}
    (hd : d ∈ FlowGraph.callsOf g.edges) (hsource : d.1.source = s.node) :
    d.2.target.parameterSlots ≤ s.frame.stack.length := by
  have hadjust : ∀ x l, (I.interprocedural g O options limits).operators.adjust x p l = (x, p) := by
    intro x l
    rcases hO with rfl | rfl <;> rfl
  obtain ⟨nested, σ, l, τ, htransfer⟩ := h.transfer hadjust hs
  obtain ⟨e, he, i, dispatch, target, hlabel, hoperation, hpops⟩ := hcalls.invocation hd
  obtain ⟨ρ, l', ρ', hfollow⟩ := Interprocedural.follow_of_leaving htransfer (hsource ▸ he)
  rw [← hpops d hd rfl]
  have hinvoke : e.label.isInvoke = true := by simp [hlabel, Label.isInvoke, Instruction.isInvoke, hoperation]
  rcases Interprocedural.along_or_reduce hinvoke hfollow with ⟨l'', halong⟩ | ⟨d', hd', k', hreduce⟩
  · exact pops_le_of_along hlabel hoperation halong
  · obtain ⟨hedge, hsource', hlabel', _⟩ := FlowGraph.mem_knownCalls.1 hd'
    rw [hpops d' (FlowGraph.mem_callsOf.2 ⟨hedge, hlabel'⟩) (hsource'.trans hsource.symm)]
    exact (reduce_eq_ok.1 hreduce).1

end MachineState

/-! ### Backward steps that succeed -/

theorem Logged.flatten_eq_ok {α β : Type} {f : α → Logged (List β)} {l : List α}
    (h : ∀ a ∈ l, ∃ part, (f a).result = .ok part) :
    ∃ bs, (do return (← l.mapM f).flatten : Logged (List β)).result = .ok bs := by
  obtain ⟨parts, hparts⟩ := exists_mapM_ok h
  refine ⟨parts.flatten, ?_⟩
  rw [Logged.result_bind, Logged.result_mapM, hparts]
  rfl

namespace Backtracer

variable {S P V : Type} [DecidableEq S] [DecidableEq P] [Located S] [Observable S V] [Domain S] [Domain V]
  {B : Backtracer S P V} {height : Nat} {p : P} {t u : TracedState S} {id : BlockId} {caller returnSite : S}
  {d : Edge × Call}

/-- The states that a trace can find can be reduced and expanded for the calls at their nodes, heap fields are not
above the threshold, and the instructions are in range for all locations at which cached states have values. -/
structure Passable (B : Backtracer S P V) (height : Nat) : Prop where
  reduces {id : BlockId} {s : S} {d : Edge × Call} (n : NodeId) : d ∈ FlowGraph.callsOf B.graph.edges →
    (B.cache.reachedOf id).firstAt? d.1.source = some s → ∃ k, B.reduce s n d.2 = .ok k
  expands {id callee : BlockId} {s k x : S} {p : P} {d : Edge × Call} {exit : NodeId} (n : NodeId) :
    d ∈ FlowGraph.callsOf B.graph.edges → (B.cache.reachedOf id).firstAt? d.1.source = some s →
    B.cache.find? d.2.target k p = some callee → B.graph.returnExit? d.2.target = some exit →
    (B.cache.reachedOf callee).firstAt? exit = some x → ∃ u, B.expand s x n d.2 = .ok u
  heap_below {s : S} {l : MemoryLocation} : B.above s l = true → l.isHeap = false
  graph : B.graph.Sized B.limits height
  shallow : B.Shallow height

namespace Passable

theorem calleeStep_ok (h : B.Passable height) (hd : d ∈ FlowGraph.callsOf B.graph.edges)
    (hs : (B.cache.reachedOf id).firstAt? d.1.source = some caller) :
    ∃ step, (B.calleeStep p t caller returnSite d.1 d.2).result = .ok step := by
  cases hfresh : t.calls.any (·.callee == d.2.target) with
  | true => exact ⟨_, result_calleeStep_recursive hfresh⟩
  | false =>
    obtain ⟨entry, hreduce⟩ := h.reduces d.1.target hd hs
    cases hfind : B.cache.find? d.2.target entry p with
    | none => exact ⟨_, result_calleeStep_missing hfresh hreduce hfind⟩
    | some callee =>
      rw [result_calleeStep hfresh hreduce hfind]
      split
      · exact ⟨_, rfl⟩
      · split
        · exact ⟨_, rfl⟩
        · rename_i exit hexit
          split
          · exact ⟨_, rfl⟩
          · rename_i returned hreturned
            obtain ⟨expanded, hexpand⟩ := h.expands d.1.target hd hs hfind hexit hreturned
            rw [hexpand]
            split <;> exact ⟨_, rfl⟩

theorem calleeSteps_ok (h : B.Passable height) {n : NodeId}
    (hs : (B.cache.reachedOf t.block).firstAt? n = some caller) :
    ∃ steps, (B.calleeSteps p t n caller).result = .ok steps := by
  by_cases hvar : ∃ j, t.site.place = .var j
  · obtain ⟨j, hj⟩ := hvar
    exact ⟨_, result_calleeSteps_var hj⟩
  · cases hcurrent : (B.cache.reachedOf t.block).firstAt? t.site.node with
    | none => exact ⟨_, result_calleeSteps_none hcurrent⟩
    | some current =>
      rw [result_calleeSteps n (fun j hj => hvar ⟨j, hj⟩) hcurrent]
      apply exists_mapM_ok
      intro d hd
      obtain ⟨hedge, rfl, hlabel, _⟩ := FlowGraph.mem_knownCalls.1 hd
      exact h.calleeStep_ok (FlowGraph.mem_callsOf.2 ⟨hedge, hlabel⟩) hs

theorem edgeSteps_ok (h : B.Passable height) (p : P) (ht : t.site.place.depth ≤ height) {e : Edge}
    (he : e ∈ B.graph.edges) : ∃ ts, (B.edgeSteps p t e).result = .ok ts := by
  cases hparent : (B.cache.reachedOf t.block).firstAt? e.source with
  | none => exact ⟨_, result_edgeSteps_none hparent⟩
  | some parent =>
    obtain ⟨steps, hsteps⟩ := h.calleeSteps_ok (p := p) hparent
    obtain ⟨places, hplaces⟩ := exists_placesBefore h.graph he ht (B.explained e.source steps)
    rw [result_edgeSteps_some hparent hsteps, hplaces]
    exact ⟨_, rfl⟩

omit [Domain S] in
theorem callerStep_ok (h : B.Passable height) (place : MemoryLocation) (t : TracedState S) (called : S)
    (hd : d ∈ FlowGraph.callsOf B.graph.edges) {b : BlockId × Block S} (hb : b ∈ B.cache.blocksOf d.2.caller) :
    ∃ ts, (B.callerStep place t called d.1 d.2 b).result = .ok ts := by
  unfold callerStep
  cases hcaller : b.2.reached.firstAt? d.1.source with
  | none => exact ⟨_, rfl⟩
  | some caller =>
    have hfirst : (B.cache.reachedOf b.1).firstAt? d.1.source = some caller := by
      rw [BlockCache.reachedOf, (BlockCache.mem_blocksOf.1 hb).2]
      exact hcaller
    obtain ⟨entry, hreduce⟩ := h.reduces t.site.node hd hfirst
    simp only [Logged.result_bind, Logged.result_ofExcept, hreduce, Except.bind]
    split <;> exact ⟨_, rfl⟩

omit [Domain S] in
theorem callerSteps_ok (h : B.Passable height) (place : MemoryLocation) (t : TracedState S) :
    ∃ ts, (B.callerSteps place t).result = .ok ts := by
  unfold callerSteps
  rw [Logged.result_bind, result_stateAt]
  cases (B.cache.reachedOf t.block).firstAt? t.site.node with
  | none => exact ⟨_, rfl⟩
  | some called =>
    apply Logged.flatten_eq_ok
    intro d hd
    apply Logged.flatten_eq_ok
    intro b hb
    obtain ⟨hedge, _, hlabel⟩ := FlowGraph.mem_enteringCalls.1 hd
    exact h.callerStep_ok place t called (FlowGraph.mem_callsOf.2 ⟨hedge, hlabel⟩) hb

omit [Domain S] in
theorem entrySteps_ok (h : B.Passable height) (t : TracedState S) : ∃ ts, (B.entrySteps t).result = .ok ts := by
  unfold entrySteps
  split
  · split
    · exact ⟨_, rfl⟩
    · exact ⟨_, rfl⟩
    · exact h.callerSteps_ok _ t
  · exact ⟨_, rfl⟩

/-- A backward step succeeds from any place outside of the heap that is not beneath the given height. -/
theorem backtrace_ok (h : B.Passable height) (p : P) (hheap : t.site.place.isHeap = false)
    (ht : t.site.place.depth ≤ height) : ∃ ts, (B.backtrace p t).result = .ok ts := by
  obtain ⟨inside, hinside⟩ := exists_mapM_ok (l := B.graph.enteringIntraprocedural t.site.node)
    fun e he => h.edgeSteps_ok p ht (FlowGraph.mem_enteringIntraprocedural.1 he).1
  obtain ⟨outside, houtside⟩ := h.entrySteps_ok t
  refine ⟨inside.flatten ++ outside, ?_⟩
  unfold backtrace
  simp only [hheap, Bool.false_eq_true, if_false, Logged.result_bind, Logged.result_mapM, hinside, houtside,
    Except.bind]
  rfl

/-- Backward steps do not lead to the heap. -/
theorem isHeap_eq_false_of_step (h : B.Passable height) (ht : t.site.place.isHeap = false) (hstep : B.Step p t u) :
    u.site.place.isHeap = false := by
  cases hstep with
  | edge _ _ _ _ habove => exact h.heap_below habove
  | callee => exact ht
  | remembered _ _ _ habove => exact h.heap_below habove
  | cached _ _ _ _ _ _ _ _ habove => exact h.heap_below habove

omit [Located S] [Domain S] in
theorem isHeap_eq_false_of_initial (h : B.Passable height) {place : MemoryLocation} {n : NodeId}
    (ht : t ∈ B.initial place n) : t.site.place.isHeap = false := by
  unfold initial at ht
  split at ht
  · cases ht
  · obtain ⟨b, hb, rfl⟩ := List.mem_map.1 ht
    obtain ⟨s, _, habove⟩ := List.any_eq_true.1 (List.mem_filter.1 hb).2
    exact h.heap_below habove

/-- No backward step of a trace fails. -/
theorem run_ne_fault (h : B.Passable height) (hrefl : Domain.le B.threshold B.threshold = true) {fuel : Nat}
    {place : MemoryLocation} {n : NodeId} {o : Outcome} {q : Search (OrderedSet (TracedState S)) (TracedState S)}
    {σ τ : TraceSession} (hrun : B.analysis.run p fuel (B.start place n) σ = (o, q, τ)) (f : Fault) :
    o ≠ .halted (.fault f) := by
  rintro rfl
  have hinitial : ∀ t ∈ B.initial place n,
      B.Within ⟨place, n⟩ t ∧ t.site.place.isHeap = false ∧ t.site.place.depth ≤ height :=
    fun t ht => ⟨within_initial ht, h.isHeap_eq_false_of_initial ht, h.shallow.initial hrefl ht⟩
  obtain ⟨t, ⟨_, hheap, hdepth⟩, herror⟩ := exists_of_fault hinitial (fun t u ⟨hwithin, hheap, hdepth⟩ hstep =>
    ⟨hwithin.step hrefl hstep, h.isHeap_eq_false_of_step hheap hstep, h.shallow.step hrefl hwithin hdepth hstep⟩) hrun
  obtain ⟨ts, hts⟩ := h.backtrace_ok p hheap hdepth
  cases hts.symm.trans herror

/-- Every trace has a result, once its bound on iterations is large enough. -/
theorem trace_ok [FiniteStore S] (h : B.Passable height) (hrefl : Domain.le B.threshold B.threshold = true)
    (place : MemoryLocation) (n : NodeId) (p : P) :
    ∃ bound, ∀ σ : TraceSession, ∃ r τ, ∀ fuel, bound ≤ fuel → B.trace fuel place n p σ = .ok r τ := by
  refine ⟨{t | B.Within ⟨place, n⟩ t}.ncard + 1, fun σ => ?_⟩
  rcases hrun : B.analysis.run p ({t | B.Within ⟨place, n⟩ t}.ncard + 1) (B.start place n) σ with ⟨o, q, τ⟩
  have hbound := not_exhausted hrefl place n p σ
  rw [hrun] at hbound
  suffices hended : ∃ r τ', B.ended place n o q τ = .ok r τ' by
    obtain ⟨r, τ', hended⟩ := hended
    refine ⟨r, τ', fun fuel hfuel => ?_⟩
    rw [trace_eq (Analysis.run_of_le hrun hbound hfuel), hended]
  cases o with
  | completed => exact ⟨_, _, rfl⟩
  | aborted => exact ⟨_, _, rfl⟩
  | halted e =>
    cases e with
    | fault f => exact absurd rfl (h.run_ne_fault hrefl hrun f)
    | exhausted => exact absurd rfl hbound

end Passable

end Backtracer

namespace Interpreter

variable {V P : Type} [Inhabited V] [JoinDomain V] [DecidableEq V] [DecidableEq P]

theorem passable (hrefl : ∀ v : V, Domain.le v v = true) {I : Interpreter V} {g : FlowGraph}
    (hcalls : g.CallsPop) {O : Operators (MachineState V) P} (hO : O = .sep ∨ O = .join) {options : Options}
    {limits : Limits} {height : Nat} (hsized : g.Sized limits height) {σ : Session (MachineState V) P}
    (hσ : (I.interprocedural g O options limits).Stored σ)
    (hheight : ∀ s ∈ σ.cache.states, s.frame.stack.length ≤ height)
    (hexits : ∀ m k p b, σ.cache.get? m k p = some b →
      ∀ x ∈ b.exits, m.descriptor.resultSlots ≤ x.frame.stack.length) (threshold : V) (extra : ExtraReach) :
    ((I.interprocedural g O options limits).backtracer σ.cache threshold extra limits).Passable height := by
  have harguments : ∀ {id : BlockId} {s : MachineState V} {d : Edge × Call}, d ∈ FlowGraph.callsOf g.edges →
      (σ.cache.reachedOf id).firstAt? d.1.source = some s →
      d.2.target.parameterSlots ≤ s.frame.stack.length := by
    intro id s d hd hs
    unfold BlockCache.reachedOf at hs
    cases hb : σ.cache.block? id with
    | none =>
      rw [hb] at hs
      cases hs
    | some b =>
      rw [hb] at hs
      obtain ⟨k, p, hcomputed⟩ := hσ.of_block? hb
      obtain ⟨hmem, hnode⟩ := LocatedStates.mem_of_firstAt? hcomputed.indexed hs
      exact MachineState.arguments_of_computed hcalls hO hcomputed hmem hd hnode.symm
  refine ⟨?_, ?_, ?_, hsized, Backtracer.shallow_of_height hheight⟩
  · intro id s d n hd hs
    exact ⟨_, MachineState.reduce_eq_ok.2 ⟨harguments hd hs, rfl⟩⟩
  · intro id callee s k x p d exit n hd hs hfind hexit hx
    obtain ⟨b, hget, _, hreached⟩ := BlockCache.get?_of_find? hfind
    rw [hreached] at hx
    have hmem : x ∈ b.exits := (hσ.of_get? hget).mem_exits hexit hx
    exact ⟨_, MachineState.expand_eq_ok.2 ⟨hexits _ _ _ _ hget x hmem, harguments hd hs, rfl⟩⟩
  · intro s l habove
    have hsome := Backtracer.isSome_of_above (hrefl threshold) habove
    cases l with
    | heap f => cases hsome
    | _ => rfl

/-- Tracing through the results of any analyses succeeds, whatever is traced from where, and however the trace is
aborted, provided that every invocation takes the arguments of the calls at its node, that the states at the exits of
methods hold their results, and that the instructions are in range for the stacks of the results. -/
theorem trace_succeeds (hrefl : ∀ v : V, Domain.le v v = true) (I : Interpreter V) {g : FlowGraph}
    (hcalls : g.CallsPop) {O : Operators (MachineState V) P} (hO : O = .sep ∨ O = .join) (options : Options)
    {limits : Limits} {height : Nat} (hsized : g.Sized limits height) {σ : Session (MachineState V) P}
    (hσ : (I.interprocedural g O options limits).Visited (fun _ => True) σ)
    (hheight : ∀ s ∈ σ.cache.states, s.frame.stack.length ≤ height)
    (hexits : ∀ m k p b, σ.cache.get? m k p = some b →
      ∀ x ∈ b.exits, m.descriptor.resultSlots ≤ x.frame.stack.length)
    (threshold : V) (extra : ExtraReach) (place : MemoryLocation) (n : NodeId) (p : P) :
    ∃ bound, ∀ ρ : TraceSession, ∃ r τ, ∀ fuel, bound ≤ fuel →
      ((I.interprocedural g O options limits).backtracer σ.cache threshold extra limits).trace fuel place n p ρ =
        .ok r τ :=
  (passable hrefl hcalls hO hsized hσ.stored hheight hexits threshold extra).trace_ok (hrefl threshold) place n p

/-- All traces through the identity and its caller succeed, aborted ones included. -/
theorem trace_succeeds_reentrant :
    reentrantGraph.CallsPop ∧ reentrantGraph.Sized (.standard .stops) 1 ∧
      ∃ σ, (counting.interprocedural reentrantGraph .join .initial (.standard .stops)).Visited (fun _ => True) σ ∧
        (∀ s ∈ σ.cache.states, s.frame.stack.length ≤ 1) ∧ σ.cache.toList.length = 2 ∧
        ∀ place n, ∃ bound, ∀ ρ : TraceSession, ∃ r τ, ∀ fuel, bound ≤ fuel →
          ((counting.interprocedural reentrantGraph .join .initial (.standard .stops)).backtracer σ.cache .empty
            (fun _ _ => false) (.standard .stops)).trace fuel place n () ρ = .ok r τ := by
  have hcalls : reentrantGraph.CallsPop := by
    unfold FlowGraph.CallsPop
    decide +kernel
  have hsized : reentrantGraph.Sized (.standard .stops) 1 := by
    unfold FlowGraph.Sized
    decide +kernel
  let session : Session (MachineState (Powerset Nat)) Unit :=
    ((counting.interprocedural reentrantGraph .join .initial (.standard .stops)).analyze 10 creator
      ⟨3, .empty, labelledFields⟩ ()).final (.start .never)
  have hvisited : (counting.interprocedural reentrantGraph .join .initial (.standard .stops)).Visited
      (fun _ => True) session :=
    .analyze _ _ _ _ (.start trivial)
  have hheight : ∀ s ∈ session.cache.states, s.frame.stack.length ≤ 1 := by decide +kernel
  have hall : ∀ r ∈ session.cache.toList, ∀ x ∈ r.2.block.exits,
      r.1.method.descriptor.resultSlots ≤ x.frame.stack.length := by
    decide +kernel
  refine ⟨hcalls, hsized, session, hvisited, hheight, by decide +kernel, fun place n =>
    trace_succeeds ValueLattice.le_refl counting hcalls (.inr rfl) .initial hsized hvisited hheight ?_ .empty
      (fun _ _ => false) place n ()⟩
  intro m k p b hget x hx
  obtain ⟨id, _, rfl, hblock, _⟩ := BlockCache.find?_of_get? hget
  obtain ⟨e, he, rfl⟩ := BlockCache.mem_toList_of_block? hblock
  exact hall _ he x hx

/-! ### Instructions that are out of range -/

def getter : Method := ⟨"Main", "get", ⟨[], some (.base .int)⟩, true⟩

/-- Returns a field, which it reads with a count of popped slots that no list has room for. -/
def getterGraph : FlowGraph :=
  (FlowGraph.assemble [.method getter,
    .instruction getter (some 0) (some 1) { Instruction.getStatic "A" false with pops := 2 ^ 62 },
    .instruction getter (some 1) (some (-1)) (.ret 1)]).graph

/-- Swaps two of three slots with an instruction that claims to push all three. -/
def swapperGraph : FlowGraph :=
  (FlowGraph.assemble [.method getter,
    .instruction getter (some 0) (some 1) (.getStatic "A" false),
    .instruction getter (some 1) (some 2) (.getStatic "A" false),
    .instruction getter (some 2) (some 3) (.getStatic "A" false),
    .instruction getter (some 3) (some 4) { Instruction.swap with pushes := 3 },
    .instruction getter (some 4) (some (-1)) (.ret 1)]).graph

def getterSession (g : FlowGraph) (limits : Limits) : Session (MachineState (Powerset Nat)) Unit :=
  ((counting.interprocedural g .join .initial limits).analyze 10 getter ⟨3, .empty, labelledFields⟩ ()).final
    (.start .never)

def getterTracer (g : FlowGraph) (limits : Limits) : Backtracer (MachineState (Powerset Nat)) Unit (Powerset Nat) :=
  (counting.interprocedural g .join .initial limits).backtracer (getterSession g limits).cache .empty
    (fun _ _ => false) limits

/-- A result that has been computed without a fault cannot be traced back through an instruction that is out of range:
that stops the program, however indices overflow, or, for the swap, if overflows stop it. -/
theorem trace_crashes_getter :
    getterGraph.CallsPop ∧
      (∀ overflow, (((counting.interprocedural getterGraph .join .initial (.standard overflow)).analyze 10 getter
        ⟨3, .empty, labelledFields⟩ ()).outcome (.start .never)).map (·.block.exits) =
          .ok [⟨1, ⟨[], [.singleton 7]⟩, labelledFields⟩]) ∧
      (∀ overflow fuel, 2 ≤ fuel → ∃ τ, (getterTracer getterGraph (.standard overflow)).trace fuel (.stack 0) 1 ()
        (.start .never) = .error (.fault .crash) τ) ∧
      swapperGraph.CallsPop ∧
      (((counting.interprocedural swapperGraph .join .initial (.standard .stops)).analyze 10 getter
        ⟨3, .empty, labelledFields⟩ ()).outcome (.start .never)).map (·.block.exits) =
          .ok [⟨1, ⟨[], [.singleton 7, .singleton 7, .singleton 7]⟩, labelledFields⟩] ∧
      ∀ fuel, 2 ≤ fuel → ∃ τ, (getterTracer swapperGraph (.standard .stops)).trace fuel (.stack 2) 1 ()
        (.start .never) = .error (.fault .crash) τ := by
  have hcalls : getterGraph.CallsPop ∧ swapperGraph.CallsPop := by
    unfold FlowGraph.CallsPop
    decide +kernel
  have hget : ∀ overflow, ((getterTracer getterGraph (.standard overflow)).analysis.run () 2
      ((getterTracer getterGraph (.standard overflow)).start (.stack 0) 1) (.start .never)).1 =
        .halted (.fault .crash) := by
    intro overflow
    cases overflow <;> decide +kernel
  have hswap : ((getterTracer swapperGraph (.standard .stops)).analysis.run () 2
      ((getterTracer swapperGraph (.standard .stops)).start (.stack 2) 1) (.start .never)).1 =
        .halted (.fault .crash) := by
    decide +kernel
  refine ⟨hcalls.1, fun overflow => ?_,
    fun overflow fuel hfuel => Backtracer.trace_error_of_halted (hget overflow) hfuel, hcalls.2, ?_,
    fun fuel hfuel => Backtracer.trace_error_of_halted hswap hfuel⟩
  · cases overflow <;> decide +kernel
  · decide +kernel

end Interpreter

end BytecodeFlow
