import BytecodeFlow.Proofs.Crashes
import BytecodeFlow.Proofs.MachineAnalysis
import BytecodeFlow.Proofs.StepRelation
import BytecodeFlow.Proofs.Tracing
import Mathlib.Data.Fintype.List
import Mathlib.Data.Set.Finite.Lattice

/-! # Every trace ends

A trace stays among finitely many states: its locations are those at which some cached state has a value, its
nodes are those of cached states and of exits, its blocks are cached, and its call records are about different
callees. Together with the loop never exploring a state twice, this bounds the number of iterations.
-/
namespace BytecodeFlow

/-- States that have values at finitely many locations only. -/
class FiniteStore (S : Type) {V : outParam Type} [Observable S V] : Prop where
  finite_places (s : S) : {l : MemoryLocation | (valueAt? s l).isSome}.Finite

instance {V : Type} : FiniteStore (MachineState V) where
  finite_places s := by
    have hvars := (Set.finite_lt_nat s.frame.locals.length).image MemoryLocation.var
    have hslots := (Set.finite_lt_nat s.frame.stack.length).image MemoryLocation.stack
    have hfields := (List.finite_toSet (s.statics.entries.map Prod.fst)).image MemoryLocation.static
    apply ((hvars.union hslots).union hfields).subset
    intro l hl
    obtain ⟨v, hv⟩ := Option.isSome_iff_exists.1 hl
    cases l with
    | var index =>
      obtain ⟨hindex, _⟩ := List.getElem?_eq_some_iff.1 hv
      exact .inl (.inl ⟨index, hindex, rfl⟩)
    | stack index =>
      obtain ⟨hindex, _⟩ := List.getElem?_eq_some_iff.1 hv
      exact .inl (.inr ⟨index, hindex, rfl⟩)
    | static field => exact .inr ⟨field, List.mem_map.2 ⟨(field, v), Fields.mem_entries.2 hv, rfl⟩, rfl⟩
    | heap field => cases hv

/-- There are finitely many lists over a finite set that do not repeat an element. -/
theorem finite_nodup_lists {α : Type} {s : Set α} (hs : s.Finite) :
    {l : List α | l.Nodup ∧ ∀ a ∈ l, a ∈ s}.Finite := by
  have : Finite s := hs
  have := Fintype.ofFinite s
  apply (Set.finite_range fun l : {l : List s // l.Nodup} => l.1.map Subtype.val).subset
  rintro l ⟨hnodup, hmem⟩
  have hl : (l.pmap Subtype.mk hmem).map Subtype.val = l := by rw [List.map_pmap, List.pmap_eq_map, List.map_id']
  rw [← hl] at hnodup
  exact ⟨⟨l.pmap Subtype.mk hmem, hnodup.of_map _⟩, hl⟩

namespace BlockCache

variable {S P : Type} {c : BlockCache S P} {id : BlockId}

def names (c : BlockCache S P) : List BlockId := c.toList.map (·.1)

def states (c : BlockCache S P) : List S :=
  c.toList.flatMap fun e => e.2.block.reached.buckets.flatMap (·.2.toList)

theorem mem_names_of_block? {b : Block S} (h : c.block? id = some b) : id ∈ c.names := by
  obtain ⟨e, he, _⟩ := mem_toList_of_block? h
  exact List.mem_map.2 ⟨_, he, rfl⟩

theorem mem_states_of_statesAt {b : Block S} {n : NodeId} {s : S} (hb : c.block? id = some b)
    (h : s ∈ b.reached.statesAt n) : s ∈ c.states := by
  obtain ⟨e, he, rfl⟩ := mem_toList_of_block? hb
  unfold LocatedStates.statesAt at h
  cases hbucket : e.block.reached.buckets.lookup n with
  | none => simp [hbucket] at h
  | some bucket =>
    rw [hbucket] at h
    obtain ⟨l, r, hbuckets, _⟩ := List.lookup_eq_some_iff.1 hbucket
    have hmem : (n, bucket) ∈ e.block.reached.buckets := by simp [hbuckets]
    exact List.mem_flatMap.2 ⟨_, he, List.mem_flatMap.2 ⟨_, hmem, h⟩⟩

theorem mem_states_of_block? {b : Block S} {n : NodeId} {s : S} (hb : c.block? id = some b)
    (h : b.reached.firstAt? n = some s) : s ∈ c.states :=
  mem_states_of_statesAt hb (List.mem_of_head? h)

theorem mem_states_of_firstAt? {n : NodeId} {s : S} (h : (c.reachedOf id).firstAt? n = some s) :
    s ∈ c.states := by
  unfold reachedOf at h
  cases hb : c.block? id with
  | none =>
    rw [hb] at h
    cases h
  | some b =>
    rw [hb] at h
    exact mem_states_of_block? hb h

end BlockCache

namespace Backtracer

variable {S P V : Type} [DecidableEq S] [DecidableEq P] [Located S] [Observable S V] [Domain S] [Domain V]
  {B : Backtracer S P V} {p : P} {t u : TracedState S} {root : Site}

/-! ### Where a trace can get -/

def targets (B : Backtracer S P V) : List Method := (FlowGraph.callsOf B.graph.edges).map (·.2.target)

def places (B : Backtracer S P V) (root : Site) : Set MemoryLocation :=
  insert root.place (⋃ s ∈ {s | s ∈ B.cache.states}, {l | (valueAt? s l).isSome})

def nodes (B : Backtracer S P V) (root : Site) : Set NodeId :=
  insert root.node ({n | n ∈ B.cache.states.map location} ∪ {n | n < B.graph.nodes.length})

def records (B : Backtracer S P V) : Set (CallRecord S) :=
  {c | c.callee ∈ B.targets ∧ c.caller ∈ B.cache.names ∧ c.state ∈ B.cache.states}

/-- A traced state that can come up in a trace from the site. -/
structure Within (B : Backtracer S P V) (root : Site) (t : TracedState S) : Prop where
  place : t.site.place ∈ B.places root
  node : t.site.node ∈ B.nodes root
  block : t.block ∈ B.cache.names
  callees : (t.calls.map (·.callee)).Nodup
  calls : ∀ c ∈ t.calls, c ∈ B.records

omit [DecidableEq S] [DecidableEq P] [Located S] [Domain S] in
theorem isSome_of_above (hrefl : Domain.le B.threshold B.threshold = true) {s : S} {l : MemoryLocation}
    (h : B.above s l = true) : (valueAt? s l).isSome := by
  unfold above MemoryLocation.valueIn at h
  cases hv : valueAt? s l with
  | none => simp [hv, hrefl] at h
  | some v => rfl

omit [DecidableEq S] [DecidableEq P] [Located S] [Domain S] in
theorem mem_places (hrefl : Domain.le B.threshold B.threshold = true) {s : S} {l : MemoryLocation}
    (hs : s ∈ B.cache.states) (h : B.above s l = true) : l ∈ B.places root :=
  .inr (Set.mem_biUnion hs (isSome_of_above hrefl h))

omit [DecidableEq S] [DecidableEq P] [Observable S V] [Domain S] [Domain V] in
theorem mem_nodes {s : S} (hs : s ∈ B.cache.states) : location s ∈ B.nodes root :=
  .inr (.inl (List.mem_map.2 ⟨s, hs, rfl⟩))

/-- A backward step does not leave the traced states that can come up. -/
theorem Within.step (h : B.Within root t) (hrefl : Domain.le B.threshold B.threshold = true)
    (hstep : B.Step p t u) : B.Within root u := by
  cases hstep with
  | edge he hparent hsteps hl habove =>
    have hheld := BlockCache.mem_states_of_firstAt? hparent
    exact ⟨mem_places hrefl hheld habove, mem_nodes hheld, h.block, h.callees, h.calls⟩
  | @callee e parent current d id exit he hparent hcurrent hvar hd henters =>
    obtain ⟨entry, _, hfind⟩ := henters.found
    obtain ⟨b, _, hb, _⟩ := BlockCache.get?_of_find? hfind
    have htarget : d.2.target ∈ B.targets := by
      obtain ⟨hedge, _, hlabel, _⟩ := FlowGraph.mem_knownCalls.1 hd
      exact List.mem_map.2 ⟨d, FlowGraph.mem_callsOf.2 ⟨hedge, hlabel⟩, rfl⟩
    have hexit : exit < B.graph.nodes.length := (List.findIdx?_eq_some_iff_getElem.1 henters.returns).1
    refine ⟨h.place, .inr (.inr hexit), BlockCache.mem_names_of_block? hb, ?_, ?_⟩
    · rw [List.map_cons, List.nodup_cons]
      refine ⟨fun hmem => ?_, h.callees⟩
      obtain ⟨c, hc, hcallee⟩ := List.mem_map.1 hmem
      exact henters.fresh c hc hcallee
    · intro c hc
      rcases List.mem_cons.1 hc with rfl | hc
      · exact ⟨htarget, h.block, BlockCache.mem_states_of_firstAt? hparent⟩
      · exact h.calls c hc
  | @remembered place c rest hentry hplace hcalls habove =>
    have hcallees := h.callees
    rw [hcalls, List.map_cons, List.nodup_cons] at hcallees
    obtain ⟨_, hcaller, hstate⟩ := h.calls c (by simp [hcalls])
    exact ⟨mem_places hrefl hstate habove, mem_nodes hstate, hcaller, hcallees.2,
      fun c hc => h.calls c (by simp [hcalls, hc])⟩
  | cached hentry hplace hcalls hcalled hd hb hcaller hreduce habove =>
    have hblock := (BlockCache.mem_blocksOf.1 hb).2
    have hheld := BlockCache.mem_states_of_block? hblock hcaller
    exact ⟨mem_places hrefl hheld habove, mem_nodes hheld, BlockCache.mem_names_of_block? hblock,
      List.nodup_nil, fun c hc => by cases hc⟩

omit [DecidableEq S] [DecidableEq P] [Domain S] [Domain V] in
theorem finite_within [FiniteStore S] (B : Backtracer S P V) (root : Site) : {t | B.Within root t}.Finite := by
  have hplaces : (B.places root).Finite := by
    apply Set.Finite.insert
    exact (List.finite_toSet _).biUnion fun s _ => FiniteStore.finite_places s
  have hnodes : (B.nodes root).Finite :=
    ((List.finite_toSet _).union (Set.finite_lt_nat _)).insert _
  have hrecords : B.records.Finite := by
    have hproduct := (List.finite_toSet B.targets).prod
      ((List.finite_toSet B.cache.names).prod (List.finite_toSet B.cache.states))
    apply (hproduct.image fun x => (⟨x.1, x.2.1, x.2.2⟩ : CallRecord S)).subset
    intro c hc
    exact ⟨(c.callee, c.caller, c.state), hc, rfl⟩
  have hproduct := (hplaces.prod hnodes).prod
    ((List.finite_toSet B.cache.names).prod (finite_nodup_lists hrecords))
  apply (hproduct.image fun x => (⟨⟨x.1.1, x.1.2⟩, x.2.1, x.2.2⟩ : TracedState S)).subset
  intro t ht
  exact ⟨((t.site.place, t.site.node), t.block, t.calls),
    ⟨⟨ht.place, ht.node⟩, ht.block, ht.callees.of_map _, ht.calls⟩, rfl⟩

omit [DecidableEq S] [DecidableEq P] [Domain S] in
theorem within_initial {place : MemoryLocation} {n : NodeId} (h : t ∈ B.initial place n) :
    B.Within ⟨place, n⟩ t := by
  unfold initial at h
  split at h
  · cases h
  · obtain ⟨b, hb, rfl⟩ := List.mem_map.1 h
    have hblock := (BlockCache.mem_blocksOf.1 (List.mem_of_mem_filter hb)).2
    exact ⟨Set.mem_insert _ _, Set.mem_insert _ _, BlockCache.mem_names_of_block? hblock, List.nodup_nil,
      fun c hc => by cases hc⟩

/-! ### How deep a trace can get -/

def Shallow (B : Backtracer S P V) (height : Nat) : Prop :=
  ∀ s ∈ B.cache.states, ∀ l, (valueAt? s l).isSome = true → l.depth ≤ height

omit [DecidableEq S] [DecidableEq P] [Located S] [Domain S] in
theorem Shallow.initial {height : Nat} (h : B.Shallow height) (hrefl : Domain.le B.threshold B.threshold = true)
    {place : MemoryLocation} {n : NodeId} (ht : t ∈ B.initial place n) : t.site.place.depth ≤ height := by
  unfold Backtracer.initial at ht
  split at ht
  · cases ht
  · obtain ⟨b, hb, rfl⟩ := List.mem_map.1 ht
    obtain ⟨hblock, hany⟩ := List.mem_filter.1 hb
    obtain ⟨s, hs, habove⟩ := List.any_eq_true.1 hany
    exact h s (BlockCache.mem_states_of_statesAt (BlockCache.mem_blocksOf.1 hblock).2 hs) _
      (isSome_of_above hrefl habove)

/-- Backward steps do not lead beneath the given height. -/
theorem Shallow.step {height : Nat} (h : B.Shallow height) (hrefl : Domain.le B.threshold B.threshold = true)
    (hwithin : B.Within root t) (ht : t.site.place.depth ≤ height) (hstep : B.Step p t u) :
    u.site.place.depth ≤ height := by
  cases hstep with
  | edge _ hparent _ _ habove =>
    exact h _ (BlockCache.mem_states_of_firstAt? hparent) _ (isSome_of_above hrefl habove)
  | callee => exact ht
  | @remembered _ c _ _ _ hcalls habove =>
    obtain ⟨_, _, hstate⟩ := hwithin.calls c (by simp [hcalls])
    exact h _ hstate _ (isSome_of_above hrefl habove)
  | cached _ _ _ _ _ hb hcaller _ habove =>
    exact h _ (BlockCache.mem_states_of_block? (BlockCache.mem_blocksOf.1 hb).2 hcaller) _
      (isSome_of_above hrefl habove)

/-! ### The end of a trace -/

theorem nodup_explored (B : Backtracer S P V) (fuel : Nat) (place : MemoryLocation) (n : NodeId) (p : P)
    (σ : TraceSession) : (B.explored fuel place n p σ).Nodup := by
  apply Analysis.nodup_explored rfl
  intro t ht
  exact reaches_start.2 (awaits_start.1 ht)

/-- A run with as many iterations as there are states that can come up, and one more, does not run out. -/
theorem not_exhausted [FiniteStore S] (hrefl : Domain.le B.threshold B.threshold = true)
    (place : MemoryLocation) (n : NodeId) (p : P) (σ : TraceSession) :
    (B.analysis.run p ({t | B.Within ⟨place, n⟩ t}.ncard + 1) (B.start place n) σ).1 ≠
      .halted .exhausted := by
  have hclosed : ∀ t ts σ τ, B.Within ⟨place, n⟩ t → B.recordStep t p σ = .ok ts τ →
      ∀ u ∈ ts, B.Within ⟨place, n⟩ u := by
    intro t ts σ τ ht h u hu
    exact ht.step hrefl ((mem_backtrace (result_of_recordStep h)).1 hu)
  apply Analysis.not_exhausted_of_finite rfl recordStep_ne_exhausted (B.finite_within ⟨place, n⟩) _ _ hclosed
  · omega
  · intro t ht
    exact reaches_start.2 (awaits_start.1 ht)
  · intro t ht
    exact within_initial (awaits_start.1 ht)

/-- What holds initially and is preserved by backward steps holds of the state from which a trace cannot go on. -/
theorem exists_of_fault {Q : TracedState S → Prop} {place : MemoryLocation} {n : NodeId}
    (hinitial : ∀ t ∈ B.initial place n, Q t) (hstep : ∀ t u, Q t → B.Step p t u → Q u) {fuel : Nat} {f : Fault}
    {q : Search (OrderedSet (TracedState S)) (TracedState S)} {σ τ : TraceSession}
    (hrun : B.analysis.run p fuel (B.start place n) σ = (.halted (.fault f), q, τ)) :
    ∃ t, Q t ∧ (B.backtrace p t).result = .error f := by
  have hnext : ∀ (q : Search (OrderedSet (TracedState S)) (TracedState S)) σ q' σ',
      (∀ t, q.Awaits t → Q t) → B.analysis.iterate p q σ = .next q' σ' → ∀ t, q'.Awaits t → Q t := by
    intro q σ q' σ' hq hnext u hu
    obtain ⟨t, w, ts, _, hpop, htransfer, _, _, hawaits⟩ := Analysis.next_contained rfl hnext 0
    rcases (hawaits u).1 hu with hw | ⟨hts, _⟩
    · exact hq u ((Waitlist.mem_of_pop? hpop).2 (.inr hw))
    · exact hstep t u (hq t ((Waitlist.mem_of_pop? hpop).2 (.inl rfl)))
        ((mem_backtrace (result_of_recordStep htransfer)).1 hts)
  rcases Analysis.run_invariant _ hnext hrun fun t ht => hinitial t (awaits_start.1 ht) with
    ⟨hcontra, _⟩ | ⟨q₁, σ₁, hq, hstop⟩
  · cases hcontra
  · rcases Analysis.iterate_stop hstop with ⟨hcontra, _⟩ | ⟨hcontra, _⟩ | ⟨σ₂, t, w, f', hf, _, hpop, herror, _⟩
    · cases hcontra
    · cases hcontra
    · cases hf
      exact ⟨t, hq t ((Waitlist.mem_of_pop? hpop).2 (.inl rfl)), result_of_recordStep_error herror⟩

/-- A run that halts with a fault is the end of every longer trace. -/
theorem trace_error_of_halted {k fuel : Nat} {place : MemoryLocation} {n : NodeId} {σ : TraceSession} {f : Fault}
    (h : (B.analysis.run p k (B.start place n) σ).1 = .halted (.fault f)) (hfuel : k ≤ fuel) :
    ∃ τ, B.trace fuel place n p σ = .error (.fault f) τ := by
  rcases hrun : B.analysis.run p k (B.start place n) σ with ⟨o, q, τ⟩
  rw [hrun] at h
  obtain rfl : o = .halted (.fault f) := h
  refine ⟨_, trace_eq (Analysis.run_of_le hrun ?_ hfuel)⟩
  simp

/-- Every trace that nothing aborts ends, with a result or a fault, within a number of iterations that does not
depend on the session; and it never explores a state twice. It does not stop the program if its instructions are in
range for all locations at which cached states have values. -/
theorem trace_terminates [FiniteStore S] (B : Backtracer S P V) (hrefl : ∀ v : V, Domain.le v v = true)
    (place : MemoryLocation) (n : NodeId) (p : P) :
    ∃ bound, ∀ σ : TraceSession, σ.signal.Quiet →
      ((∃ r τ, B.trace bound place n p σ = .ok r τ ∧ r.aborted = false) ∨
        ∃ f τ, B.trace bound place n p σ = .error (.fault f) τ ∧
          ∀ height, B.Sized height → B.Shallow height → f ≠ .crash) ∧
      (∀ fuel, bound ≤ fuel → B.trace fuel place n p σ = B.trace bound place n p σ) ∧
      ∀ fuel, (B.explored fuel place n p σ).Nodup := by
  refine ⟨{t | B.Within ⟨place, n⟩ t}.ncard + 1, fun σ hσ => ?_⟩
  obtain ⟨o, q, steps, hcourse⟩ := B.exists_course p ({t | B.Within ⟨place, n⟩ t}.ncard + 1) (B.start place n)
  obtain ⟨τ, hrun, _, _⟩ := hcourse.run σ hσ
  have hbound := not_exhausted (hrefl B.threshold) place n p σ
  rw [hrun] at hbound
  refine ⟨?_, fun fuel hfuel => ?_, fun fuel => B.nodup_explored fuel place n p σ⟩
  · rw [trace_eq hrun]
    rcases hcourse.outcome with rfl | ⟨f, rfl⟩ | rfl
    · exact .inl ⟨_, _, rfl, rfl⟩
    · refine .inr ⟨f, _, rfl, ?_⟩
      rintro height hsized hshallow rfl
      have hinitial : ∀ t ∈ B.initial place n, B.Within ⟨place, n⟩ t ∧ t.site.place.depth ≤ height :=
        fun t ht => ⟨within_initial ht, hshallow.initial (hrefl B.threshold) ht⟩
      obtain ⟨t, ⟨_, ht⟩, hcrash⟩ := exists_of_fault hinitial (fun t u ht hstep =>
        ⟨ht.1.step (hrefl B.threshold) hstep, hshallow.step (hrefl B.threshold) ht.1 ht.2 hstep⟩) hrun
      exact hsized.backtrace ht hcrash
    · exact absurd rfl hbound
  · rw [trace_eq hrun, trace_eq (Analysis.run_of_le hrun hbound hfuel)]

end Backtracer

section MachineStates

variable {V P : Type}

theorem MachineState.depth_le {s : MachineState V} {l : MemoryLocation} (h : (valueAt? s l).isSome = true) :
    l.depth ≤ s.frame.stack.length := by
  cases l with
  | stack index =>
    obtain ⟨v, hv⟩ := Option.isSome_iff_exists.1 h
    exact (List.getElem?_eq_some_iff.1 hv).1
  | _ => exact Nat.zero_le _

theorem Backtracer.shallow_of_height {B : Backtracer (MachineState V) P V} {height : Nat}
    (h : ∀ s ∈ B.cache.states, s.frame.stack.length ≤ height) : B.Shallow height :=
  fun s hs _ hvalue => (MachineState.depth_le hvalue).trans (h s hs)

end MachineStates

namespace Interpreter

/-! ### A loop around a recursive call -/

def spinner : Method := ⟨"Main", "spin", ⟨[], some (.base .int)⟩, true⟩

/-- Calls itself any number of times, keeps the last result in a field and returns that field. -/
def spinnerGraph : FlowGraph :=
  (FlowGraph.assemble [.method spinner,
    .invoke spinner (some 0) (some 1) .static spinner,
    .instruction spinner (some 1) (some 0) (.putStatic "A" false),
    .instruction spinner (some 0) (some 2) (.getStatic "A" false),
    .instruction spinner (some 2) (some (-1)) (.ret 1)]).graph

def spinnerAnalysis : Interprocedural (MachineState (Powerset Nat)) Unit :=
  counting.interprocedural spinnerGraph .join .initial (.standard .stops)

/-- Traces through the result of analysing the spinner from a state whose field holds the label 7. -/
def spinnerTracer : Backtracer (MachineState (Powerset Nat)) Unit (Powerset Nat) :=
  spinnerAnalysis.backtracer
    ((spinnerAnalysis.analyze 10 spinner ⟨3, .empty, .ofList [("A", .singleton 7)]⟩ ()).final
      (.start .never)).cache .empty (fun _ _ => false) (.standard .stops)

theorem trace_terminates_spinner :
    (∀ v : Powerset Nat, Domain.le v v = true) ∧ (TraceSession.start .never).signal.Quiet ∧
      ∃ bound, ((∃ r τ, spinnerTracer.trace bound (.stack 0) 1 () (.start .never) = .ok r τ ∧
          r.aborted = false) ∨
        ∃ f τ, spinnerTracer.trace bound (.stack 0) 1 () (.start .never) = .error (.fault f) τ ∧ f ≠ .crash) ∧
      (∀ fuel, bound ≤ fuel → spinnerTracer.trace fuel (.stack 0) 1 () (.start .never) =
        spinnerTracer.trace bound (.stack 0) 1 () (.start .never)) ∧
      ∀ fuel, (spinnerTracer.explored fuel (.stack 0) 1 () (.start .never)).Nodup := by
  have hgraph : spinnerGraph.Sized (.standard .stops) 1 := by
    unfold FlowGraph.Sized
    decide +kernel
  have hstates : ∀ s ∈ spinnerTracer.cache.states, s.frame.stack.length ≤ 1 := by decide +kernel
  obtain ⟨bound, h⟩ := spinnerTracer.trace_terminates ValueLattice.le_refl (.stack 0) 1 ()
  obtain ⟨hends, hfuel, hnodup⟩ := h (.start .never) trivial
  refine ⟨ValueLattice.le_refl, trivial, bound, hends.imp_right ?_, hfuel, hnodup⟩
  rintro ⟨f, τ, htrace, hcrash⟩
  exact ⟨f, τ, htrace, hcrash 1 (sized hgraph _ _ _ _ _) (Backtracer.shallow_of_height hstates)⟩

/-! ### A load that claims to pop -/

def weigher : Method := ⟨"Main", "weigh", ⟨[.base .int], some (.base .int)⟩, true⟩

/-- Returns its argument, which it loads with a count of popped slots that no list has room for. -/
def weigherGraph : FlowGraph :=
  (FlowGraph.assemble [.method weigher,
    .instruction weigher (some 0) (some 1) { Instruction.load 0 false with pops := 2 ^ 62 },
    .instruction weigher (some 1) (some (-1)) (.ret 1)]).graph

def weigherAnalysis (overflow : Overflow) : Interprocedural (MachineState (Powerset Nat)) Unit :=
  counting.interprocedural weigherGraph .join .initial (.standard overflow)

def weigherTracer (overflow : Overflow) : Backtracer (MachineState (Powerset Nat)) Unit (Powerset Nat) :=
  (weigherAnalysis overflow).backtracer
    (((weigherAnalysis overflow).analyze 10 weigher ⟨3, ⟨[.singleton 7], []⟩, .empty⟩ ()).final
      (.start .never)).cache .empty (fun _ _ => false) (.standard overflow)

/-- The result of the weigher is its argument, but it cannot be traced back: that stops the program, however indices
overflow. -/
theorem trace_crashes_weigher :
    (∀ overflow, (weigherTracer overflow).cache.toList.map (·.2.block.exits) =
      [[⟨1, ⟨[.singleton 7], [.singleton 7]⟩, .empty⟩]]) ∧
    ∀ overflow fuel, 2 ≤ fuel → ∃ τ,
      (weigherTracer overflow).trace fuel (.stack 0) 1 () (.start .never) = .error (.fault .crash) τ := by
  refine ⟨fun overflow => by cases overflow <;> decide +kernel, fun overflow fuel hfuel => ?_⟩
  have hcrash : ((weigherTracer overflow).analysis.run () 2 ((weigherTracer overflow).start (.stack 0) 1)
      (.start .never)).1 = .halted (.fault .crash) := by
    cases overflow <;> decide +kernel
  exact Backtracer.trace_error_of_halted hcrash hfuel

end Interpreter

end BytecodeFlow
