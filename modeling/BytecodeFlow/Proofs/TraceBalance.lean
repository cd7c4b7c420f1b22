import BytecodeFlow.Proofs.TraceStates

/-! # The calls that a trace has stepped into

A trace that steps from a return site into a callee remembers the block and the state of the caller, and goes back to
them at the entry of the callee. In a graph whose edges stay in their methods and whose calls leave a node of their
callers, the remembered calls of every state that is reached fit together: the innermost one is a call to the method in
which the trace is, each was made in the method that the next one called, and no method is called twice. Each of them
was stepped into from the block to which the trace goes back.
-/
namespace BytecodeFlow

/-- Call edges leave a node of the caller. -/
def FlowGraph.Attributed (g : FlowGraph) : Prop :=
  ∀ d ∈ callsOf g.edges, g.methodAt? d.1.source = some d.2.caller

namespace Backtracer

variable {S P V : Type} [Located S] (B : Backtracer S P V)

/-- The block is cached for the method of the node. -/
structure Houses (id : BlockId) (n : NodeId) : Prop where
  method : B.graph.methodAt? n = some id.method
  cached : (B.cache.block? id).isSome = true

/-- The caller's state is the first one at its node in the caller's block, which is one of the method of that node;
and there the callee is called. -/
structure Remembers (c : CallRecord S) : Prop where
  first : B.Recalled c
  call : ∃ d ∈ B.graph.knownCalls (location c.state), d.2.target = c.callee
  caller : B.Houses c.caller (location c.state)

/-- The remembered calls fit to the node of the state and to one another. -/
structure Matched (t : TracedState S) : Prop where
  block : B.Houses t.block t.site.node
  different : (t.calls.map (·.callee)).Nodup
  innermost : ∀ c ∈ t.calls.head?, B.graph.methodAt? t.site.node = some c.callee
  records : ∀ c ∈ t.calls, B.Remembers c
  chain : t.calls.IsChain fun c below =>
    B.graph.methodAt? (location c.state) = some below.callee ∧ c.caller.method = below.callee

variable [DecidableEq S] [DecidableEq P] [Observable S V] [Domain S] [Domain V]

/-- In a trace of the site the call was stepped into from its return site, in the block of its caller and with these
calls remembered before. -/
def EnteredFrom (p : P) (place : MemoryLocation) (n : NodeId) (c : CallRecord S) (below : List (CallRecord S)) : Prop :=
  ∃ t u, B.LeadsTo p place n t ∧ B.StepsTo p t u ∧ t.block = c.caller ∧ t.calls = below ∧ u.calls = c :: below ∧
    ∃ e ∈ B.graph.enteringIntraprocedural t.site.node, e.source = location c.state

/-- The step goes along an edge into the node: it stays in the block, or steps into a call that is made there. -/
def Onward (t u : TracedState S) : Prop :=
  ∃ e ∈ B.graph.enteringIntraprocedural t.site.node,
    (u.site.node = e.source ∧ u.block = t.block ∧ u.calls = t.calls) ∨
      ∃ c, location c.state = e.source ∧ c.caller = t.block ∧ u.calls = c :: t.calls

variable {B} {p : P} {t u : TracedState S} {place : MemoryLocation} {n : NodeId}

/-! ### One step -/

omit [DecidableEq S] [DecidableEq P] [Located S] [Observable S V] [Domain S] [Domain V] in
theorem Houses.congr {id : BlockId} {m : NodeId} (h : B.Houses id n)
    (heq : B.graph.methodAt? m = B.graph.methodAt? n) : B.Houses id m :=
  ⟨heq.trans h.method, h.cached⟩

omit [Located S] [Observable S V] [Domain S] [Domain V] in
theorem houses_of_find? {m : Method} {k : S} {id : BlockId} (h : B.cache.find? m k p = some id)
    (hn : B.graph.methodAt? n = some m) : B.Houses id n := by
  obtain ⟨b, hget, hblock, _⟩ := BlockCache.get?_of_find? h
  obtain ⟨id', hid', hmethod, _⟩ := BlockCache.find?_of_get? hget
  obtain rfl : id = id' := Option.some.inj (h.symm.trans hid')
  exact ⟨hn.trans (congrArg some hmethod.symm), by rw [hblock]; rfl⟩

omit [DecidableEq S] [DecidableEq P] [Located S] [Observable S V] [Domain S] [Domain V] in
theorem houses_of_mem_blocksOf {m : Method} {b : BlockId × Block S} (h : b ∈ B.cache.blocksOf m)
    (hn : B.graph.methodAt? n = some m) : B.Houses b.1 n := by
  obtain ⟨rfl, hblock⟩ := BlockCache.mem_blocksOf.1 h
  exact ⟨hn, by rw [hblock]; rfl⟩

omit [DecidableEq S] [DecidableEq P] [Located S] [Observable S V] [Domain S] [Domain V] in
theorem methodAt?_of_enteringIntraprocedural (hB : B.graph.Confined) {e : Edge}
    (he : e ∈ B.graph.enteringIntraprocedural n) : B.graph.methodAt? e.source = B.graph.methodAt? n := by
  obtain ⟨hedge, rfl, hintra⟩ := FlowGraph.mem_enteringIntraprocedural.1 he
  exact (hB e hedge hintra).symm

/-- A backward step keeps the remembered calls matched: stepping into a callee adds the call that is made at the node,
and going back to the caller removes it. -/
theorem Matched.step (hfiled : B.Filed) (hconfined : B.graph.Confined) (hattributed : B.graph.Attributed)
    (h : B.Matched t) (hheap : t.site.place.isHeap = false) (hstep : B.Step p t u) : B.Matched u := by
  have hrecalled := (hfiled.step (fun c hc => (h.records c hc).first) hheap hstep).2
  cases hstep with
  | edge he hparent hsteps hl habove =>
    have hmethod := methodAt?_of_enteringIntraprocedural hconfined he
    rw [← hfiled _ _ _ hparent] at hmethod
    exact ⟨h.block.congr hmethod, h.different, fun c hc => hmethod.trans (h.innermost c hc), h.records, h.chain⟩
  | @callee e parent current d id exit he hparent hcurrent hvar hd henters =>
    have hmethod := methodAt?_of_enteringIntraprocedural hconfined he
    have hnode := hfiled _ _ _ hparent
    rw [← hnode] at hmethod hd
    obtain ⟨entry, _, hfind⟩ := henters.found
    have hexit := FlowGraph.methodAt?_of_findNode henters.returns
    constructor
    · exact houses_of_find? hfind hexit
    · rw [List.map_cons, List.nodup_cons]
      refine ⟨fun hmem => ?_, h.different⟩
      obtain ⟨c, hc, hcallee⟩ := List.mem_map.1 hmem
      exact henters.fresh c hc hcallee
    · rintro c ⟨⟩
      exact hexit
    · intro c hc
      have hfirst := hrecalled c hc
      rcases List.mem_cons.1 hc with rfl | hc
      · exact ⟨hfirst, ⟨d, hd, rfl⟩, h.block.congr hmethod⟩
      · exact h.records c hc
    · rw [List.isChain_cons]
      refine ⟨fun below hbelow => ?_, h.chain⟩
      have hcallee := h.innermost below hbelow
      exact ⟨hmethod.trans hcallee, Option.some.inj (h.block.method.symm.trans hcallee)⟩
  | @remembered place c rest hentry hplace hcalls habove =>
    obtain ⟨_, hdifferent, _, hrecords, hchain⟩ := h
    rw [hcalls] at hdifferent hrecords hchain
    rw [List.isChain_cons] at hchain
    exact ⟨(hrecords c List.mem_cons_self).caller, (List.nodup_cons.1 hdifferent).2,
      fun below hbelow => (hchain.1 below hbelow).1, fun c hc => hrecords c (List.mem_cons_of_mem _ hc), hchain.2⟩
  | cached hentry hplace hcalls hcalled hd hb hcaller hreduce habove =>
    obtain ⟨hedge, _, hlabel⟩ := FlowGraph.mem_enteringCalls.1 hd
    have hmethod := hattributed _ (FlowGraph.mem_callsOf.2 ⟨hedge, hlabel⟩)
    rw [← hfiled _ _ _ (firstAt?_of_mem_blocksOf hb hcaller)] at hmethod
    exact ⟨houses_of_mem_blocksOf hb hmethod, List.nodup_nil, nofun, nofun, .nil⟩

/-- With a call remembered, a step that does not go along an edge into the node goes back from the entry of the callee
to the block and the call site of the caller. -/
theorem Step.onward_or_back (hfiled : B.Filed) (hstep : B.Step p t u) {c : CallRecord S}
    {below : List (CallRecord S)} (hcalls : t.calls = c :: below) :
    B.Onward t u ∨ (B.graph.isEntryNode t.site.node = true ∧ u.site.node = location c.state ∧ u.block = c.caller ∧
      u.calls = below) := by
  cases hstep with
  | edge he hparent hsteps hl habove => exact .inl ⟨_, he, .inl ⟨hfiled _ _ _ hparent, rfl, rfl⟩⟩
  | callee he hparent hcurrent hvar hd henters => exact .inl ⟨_, he, .inr ⟨_, hfiled _ _ _ hparent, rfl, rfl⟩⟩
  | remembered hentry hplace hcalls' habove =>
    obtain ⟨rfl, rfl⟩ := List.cons.inj (hcalls.symm.trans hcalls')
    exact .inr ⟨hentry, rfl, rfl, rfl⟩
  | cached _ _ hnil => cases hnil.symm.trans hcalls

/-- A call that is remembered after a step was so before, or has just been stepped into. -/
theorem EnteredFrom.step (hfiled : B.Filed) (hlead : B.LeadsTo p place n t) (hstep : B.StepsTo p t u)
    (h : ∀ c below, c :: below <:+ t.calls → B.EnteredFrom p place n c below) {c : CallRecord S}
    {below : List (CallRecord S)} (hsuffix : c :: below <:+ u.calls) : B.EnteredFrom p place n c below := by
  have hcases := step_of_stepsTo hstep
  cases hcases with
  | edge => exact h c below hsuffix
  | callee he hparent =>
    rcases List.suffix_cons_iff.1 hsuffix with heq | hsuffix
    · obtain ⟨rfl, rfl⟩ := List.cons.inj heq
      exact ⟨t, _, hlead, hstep, rfl, rfl, rfl, _, he, (hfiled _ _ _ hparent).symm⟩
    · exact h c below hsuffix
  | remembered _ _ hcalls =>
    rw [hcalls] at h
    exact h c below (hsuffix.trans (List.suffix_cons _ _))
  | cached => exact absurd (List.suffix_nil.1 hsuffix) (by simp)

/-! ### A whole trace -/

omit [DecidableEq S] [DecidableEq P] [Domain S] in
theorem matched_initial (h : t ∈ B.initial place n) : B.Matched t := by
  unfold initial at h
  split at h
  · cases h
  · rename_i m hm
    obtain ⟨b, hb, rfl⟩ := List.mem_map.1 h
    exact ⟨houses_of_mem_blocksOf (List.mem_of_mem_filter hb) hm, List.nodup_nil, nofun, nofun, .nil⟩

theorem LeadsTo.balanced (hfiled : B.Filed) (hconfined : B.graph.Confined) (hattributed : B.graph.Attributed)
    (h : B.LeadsTo p place n t) :
    B.Matched t ∧ ∀ c below, c :: below <:+ t.calls → B.EnteredFrom p place n c below := by
  obtain ⟨t₀, ht₀, hpath⟩ := h
  induction hpath with
  | refl =>
    refine ⟨matched_initial ht₀, fun c below hsuffix => ?_⟩
    rw [calls_of_mem_initial ht₀] at hsuffix
    exact absurd (List.suffix_nil.1 hsuffix) (by simp)
  | tail hpath hstep ih =>
    exact ⟨ih.1.step hfiled hconfined hattributed (isHeap_of_stepsTo hstep) (step_of_stepsTo hstep),
      fun c below => EnteredFrom.step hfiled ⟨t₀, ht₀, hpath⟩ hstep ih.2⟩

/-- The calls that a trace remembers are balanced. Whatever has been analysed, in a graph whose edges stay in their
methods and whose calls leave a node of their caller, the calls of every state that a trace has reached are matched,
each was stepped into from its caller's block, and a step that leaves the entry of a callee goes back to the call site
in that block. -/
theorem trace_calls_balanced {S P V : Type} [DecidableEq S] [DecidableEq P] [Located S] [Observable S V] [Domain S]
    [Domain V] {A : Interprocedural S P} {σ : Session S P} (hσ : A.Visited (fun _ => True) σ)
    (hconfined : A.graph.Confined) (hattributed : A.graph.Attributed) (threshold : V) (extra : ExtraReach) {fuel : Nat}
    {place : MemoryLocation} {n : NodeId} {p : P} {ts : TraceSession} {t : TracedState S} :
    let B := A.backtracer σ.cache threshold extra
    t ∈ B.reached fuel place n p ts →
      B.Matched t ∧ ∀ c below,
        (c :: below <:+ t.calls → B.EnteredFrom p place n c below) ∧
        (t.calls = c :: below → ∀ u, B.StepsTo p t u → B.Onward t u ∨
          (B.graph.isEntryNode t.site.node = true ∧ u.site.node = location c.state ∧ u.block = c.caller ∧
            u.calls = below)) := by
  intro B ht
  have hfiled : B.Filed := hσ.filed threshold extra
  obtain ⟨hmatched, hentered⟩ := (leadsTo_of_mem_reached ht).balanced hfiled hconfined hattributed
  exact ⟨hmatched, fun c below => ⟨hentered c below, fun hcalls u hu =>
    (step_of_stepsTo hu).onward_or_back hfiled hcalls⟩⟩

end Backtracer

namespace Interpreter

/-! ### A call inside a call -/

def relay : Method := ⟨"Main", "relay", ⟨[.base .int], some (.base .int)⟩, true⟩

/-- The creator passes a new object to a method that passes it on to the identity. -/
def relayGraph : FlowGraph :=
  (FlowGraph.assemble [.method creator, .method relay, .method identity,
    .instruction identity (some 0) (some 1) (.load 0 false),
    .instruction identity (some 1) (some (-1)) (.ret 1),
    .instruction relay (some 0) (some 1) (.load 0 false),
    .invoke relay (some 1) (some 2) .static identity,
    .instruction relay (some 2) (some (-1)) (.ret 1),
    .instruction creator (some 0) (some 1) .new,
    .invoke creator (some 1) (some 2) .static relay,
    .instruction creator (some 2) (some (-1)) (.ret 0)]).graph

def relaySession : Session (MachineState (Powerset Nat)) Unit :=
  ((counting.joining relayGraph .initial).analyze 10 creator (creatorEntry 0) ()).final (.start .never)

def relayTracer : Backtracer (MachineState (Powerset Nat)) Unit (Powerset Nat) :=
  (counting.joining relayGraph .initial).backtracer relaySession.cache .empty fun _ _ => false

def innerCall : CallRecord (MachineState (Powerset Nat)) :=
  ⟨identity, ⟨relay, 0⟩, 11, ⟨[.singleton 0], [.singleton 0]⟩, .empty⟩

def outerCall : CallRecord (MachineState (Powerset Nat)) :=
  ⟨relay, ⟨creator, 0⟩, 13, ⟨[], [.singleton 0]⟩, .empty⟩

/-- The result in the creator is traced through the relay to the argument of the identity, and from there back to the
relay. -/
theorem trace_calls_balanced_relay :
    relayGraph.Confined ∧ relayGraph.Attributed ∧
      ⟨⟨.var 0, 9⟩, ⟨identity, 0⟩, [innerCall, outerCall]⟩ ∈
        relayTracer.reached 20 (.stack 0) 14 () (.start .never) ∧
      relayTracer.Matched ⟨⟨.var 0, 9⟩, ⟨identity, 0⟩, [innerCall, outerCall]⟩ ∧
      relayTracer.EnteredFrom () (.stack 0) 14 innerCall [outerCall] ∧
      relayTracer.StepsTo () ⟨⟨.var 0, 9⟩, ⟨identity, 0⟩, [innerCall, outerCall]⟩
        ⟨⟨.stack 0, 11⟩, ⟨relay, 0⟩, [outerCall]⟩ ∧
      ∀ u, relayTracer.StepsTo () ⟨⟨.var 0, 9⟩, ⟨identity, 0⟩, [innerCall, outerCall]⟩ u →
        u.site.node = 11 ∧ u.block = ⟨relay, 0⟩ ∧ u.calls = [outerCall] := by
  have hconfined : relayGraph.Confined := by
    unfold FlowGraph.Confined
    decide +kernel
  have hattributed : relayGraph.Attributed := by
    unfold FlowGraph.Attributed
    decide +kernel
  have hmem : ⟨⟨.var 0, 9⟩, ⟨identity, 0⟩, [innerCall, outerCall]⟩ ∈
      relayTracer.reached 20 (.stack 0) 14 () (.start .never) := by decide +kernel
  have hvisited : (counting.joining relayGraph .initial).Visited (fun _ => True) relaySession :=
    .analyze _ _ _ _ (.start trivial)
  have hback : (relayTracer.backtrace () ⟨⟨.var 0, 9⟩, ⟨identity, 0⟩, [innerCall, outerCall]⟩).result.toOption =
      some [⟨⟨.stack 0, 11⟩, ⟨relay, 0⟩, [outerCall]⟩] := by decide +kernel
  have hedges : relayGraph.enteringIntraprocedural 9 = [] := by decide +kernel
  have hok : ∀ {r : Except Fault (List (TracedState (MachineState (Powerset Nat))))} {us}, r.toOption = some us →
      r = .ok us := by
    rintro (_ | _) us ⟨⟩
    rfl
  obtain ⟨hmatched, hcalls⟩ := Backtracer.trace_calls_balanced hvisited hconfined hattributed (.empty : Powerset Nat)
    (fun _ _ => false) hmem
  obtain ⟨hentered, hsteps⟩ := hcalls innerCall [outerCall]
  refine ⟨hconfined, hattributed, hmem, hmatched, hentered List.suffix_rfl, ⟨_, hok hback, List.mem_singleton_self _⟩,
    fun u hu => ?_⟩
  rcases hsteps rfl u hu with ⟨e, he, _⟩ | ⟨_, hstep⟩
  · change e ∈ relayGraph.enteringIntraprocedural 9 at he
    rw [hedges] at he
    cases he
  · exact hstep

end Interpreter

end BytecodeFlow
