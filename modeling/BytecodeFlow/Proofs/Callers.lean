import BytecodeFlow.Proofs.Domination
import BytecodeFlow.Proofs.StepRelation

/-! # Callers are found from the entries of their callees

At the entry of a procedure a backward step looks for callers whose state reduces to the state that the block
has there. This is the state for which the block was computed, unless something was merged into it later. If it
is, every caller that has led to the block is found. An edge back to the entry can spoil this.
-/
namespace BytecodeFlow

theorem FlowGraph.mem_enteringCalls {g : FlowGraph} {n : NodeId} {d : Edge × Call} :
    d ∈ g.enteringCalls n ↔ d.1 ∈ g.edges ∧ d.1.target = n ∧ d.1.label = .call d.2 := by
  rw [enteringCalls, mem_callsOf]
  simp only [entering, List.mem_filter, beq_iff_eq, and_assoc]

namespace MachineState

variable {V P : Type} [Inhabited V] [JoinDomain V] [DecidableEq V] [ValueLattice V] [DecidableEq P]
  {I : Interpreter V} {g : FlowGraph} {options : Options} {given : Prop} {m : Method} {p : P}
  {k s : MachineState V}

omit [DecidableEq P] in
/-- Without an edge that leads to the entry, nothing is merged into the entry state. -/
theorem eq_entry_of_generated (hnone : g.enteringIntraprocedural k.node = [])
    (h : (I.joining g options).Generated given p m k s) (hnode : s.node = k.node) : s = k := by
  have hedge : ∀ {e : Edge} {n : NodeId}, e ∈ g.leavingIntraprocedural n → e.target ≠ k.node := by
    intro e n he htarget
    obtain ⟨hmem, _, hintra⟩ := FlowGraph.mem_leavingIntraprocedural.1 he
    have hentering := FlowGraph.mem_enteringIntraprocedural.2 ⟨hmem, htarget, hintra⟩
    rw [hnone] at hentering
    cases hentering
  induction h with
  | entry => rfl
  | along _ he _ _ _ _ => exact absurd hnode (hedge he)
  | call _ he _ _ _ _ _ _ _ _ => exact absurd hnode (hedge he)
  | merge _ _ hloc ihs iht =>
    rw [merge_join hloc] at hnode ⊢
    rw [ihs hnone hnode hedge, iht hnone (hloc.trans hnode) hedge, join_self]

/-- The block still has its entry state. -/
theorem firstAt?_entry {c : BlockCache (MachineState V) P} {b : Block (MachineState V)}
    (hb : (I.joining g options).Complete given c m k p b) (hnone : g.enteringIntraprocedural k.node = []) :
    b.reached.firstAt? k.node = some k := by
  have hunique : ∀ s ∈ b.reached.all.toList, s.node = k.node → s = k := fun s hs hnode =>
    eq_entry_of_generated hnone (hb.generated s hs) hnode
  obtain ⟨r, hr, hle⟩ := hb.entry
  obtain rfl : r = k := hunique r hr (le_iff.1 hle).1.symm
  exact LocatedStates.firstAt?_of_unique hb.indexed hr hunique

end MachineState

namespace Interpreter

open MachineState

variable {V P : Type} [Inhabited V] [JoinDomain V] [DecidableEq V] [DecidableEq P]

omit [DecidableEq P] in
/-- What a location at the entry of a callee was initialised from. -/
theorem callerPlace?_of_knownCall {I : Interpreter V} {g : FlowGraph} (hbuilt : g.Built) {options : Options}
    {c : BlockCache (MachineState V) P} {threshold : V} {extra : ExtraReach} {n : NodeId} {d : Edge × Call}
    (hd : d ∈ g.knownCalls n) (place : MemoryLocation) (id : BlockId)
    (calls : List (CallRecord (MachineState V))) :
    ((I.joining g options).backtracer c threshold extra).callerPlace? ⟨⟨place, d.1.target⟩, id, calls⟩ =
      match place with
      | .var i => (d.2.target.argumentSlot? i).map .stack
      | .static field => some (.static field)
      | .stack _ | .heap _ => none := by
  have hmethod : (g.node d.1.target).method? = some d.2.target :=
    FlowGraph.methodAt?_entry (hbuilt.entry?_of_knownCall hd)
  cases place with
  | var i =>
    change ((g.node d.1.target).method?.bind (·.argumentSlot? i)).map MemoryLocation.stack = _
    rw [hmethod]
    rfl
  | _ => rfl

/-- A backward step from the entry of a callee returns to every caller whose state reduces to the entry state
of the callee's block, provided that nothing was merged into that state: it is still the one at the entry, as
it always is if no edge leads back there. An argument is traced to its slot on the caller's stack, a static
field to itself. -/
theorem callers_found {V P : Type} [Inhabited V] [JoinDomain V] [DecidableEq V] [ValueLattice V]
    [DecidableEq P] (I : Interpreter V) {g : FlowGraph} (hbuilt : g.Built) (options : Options)
    {σ : Session (MachineState V) P} (hσ : (I.joining g options).Visited (fun _ => True) σ)
    {n : NodeId} {d : Edge × Call} (hd : d ∈ g.knownCalls n) {kc : MachineState V} {pc : P}
    {caller : Block (MachineState V)} (hcaller : σ.cache.get? d.2.caller kc pc = some caller) {idc : BlockId}
    (hidc : σ.cache.find? d.2.caller kc pc = some idc) {s k : MachineState V}
    (hs : caller.reached.firstAt? n = some s) (hreduce : s.reduce d.1.target d.2 = .ok k) {p : P}
    {callee : Block (MachineState V)} (hcallee : σ.cache.get? d.2.target k p = some callee) {id : BlockId}
    (hid : σ.cache.find? d.2.target k p = some id)
    (hkept : g.enteringIntraprocedural d.1.target = [] ∨ callee.reached.firstAt? d.1.target = some k)
    (threshold : V) (extra : ExtraReach) (p' : P) :
    let B := (I.joining g options).backtracer σ.cache threshold extra
    (∀ i slot ts, d.2.target.argumentSlot? i = some slot → B.above s (.stack slot) = true →
        (B.backtrace p' ⟨⟨.var i, d.1.target⟩, id, []⟩).result = .ok ts →
        ⟨⟨.stack slot, n⟩, idc, []⟩ ∈ ts) ∧
      ∀ field ts, B.above s (.static field) = true →
        (B.backtrace p' ⟨⟨.static field, d.1.target⟩, id, []⟩).result = .ok ts →
        ⟨⟨.static field, n⟩, idc, []⟩ ∈ ts := by
  intro B
  obtain ⟨hedge, hsource, hlabel, _⟩ := FlowGraph.mem_knownCalls.1 hd
  have hnode : k.node = d.1.target := by
    obtain ⟨_, rfl⟩ := reduce_eq_ok.1 hreduce
    rfl
  have hcalled : callee.reached.firstAt? d.1.target = some k := by
    rcases hkept with hnone | hkept
    · rw [← hnode] at hnone ⊢
      exact firstAt?_entry (complete_of_visited (.inr rfl) hσ hcallee) hnone
    · exact hkept
  obtain ⟨id', hid', _, _, hreached⟩ := BlockCache.find?_of_get? hcallee
  obtain rfl : id = id' := Option.some.inj (hid.symm.trans hid')
  obtain ⟨idc', hidc', hmethod, hblock, _⟩ := BlockCache.find?_of_get? hcaller
  obtain rfl : idc = idc' := Option.some.inj (hidc.symm.trans hidc')
  obtain ⟨_, rfl⟩ : _ ∧ s.node = n :=
    LocatedStates.mem_of_firstAt? (complete_of_visited (.inr rfl) hσ hcaller).indexed hs
  have hfound : ∀ place source ts, B.callerPlace? ⟨⟨place, d.1.target⟩, id, []⟩ = some source →
      B.above s source = true → (B.backtrace p' ⟨⟨place, d.1.target⟩, id, []⟩).result = .ok ts →
      ⟨⟨source, s.node⟩, idc, []⟩ ∈ ts := by
    intro place source ts hplace habove hts
    apply (Backtracer.mem_backtrace hts).2
    apply Backtracer.Step.cached (d := d) (b := (idc, caller)) _ hplace rfl _ _ _ _ hreduce habove
    · exact FlowGraph.isEntryNode_of_entry (hbuilt.entry?_of_knownCall hd)
    · rw [← hcalled, ← hreached]
      rfl
    · exact FlowGraph.mem_enteringCalls.2 ⟨hedge, rfl, hlabel⟩
    · exact BlockCache.mem_blocksOf.2 ⟨hmethod, hblock⟩
    · rw [hsource]
      exact hs
  refine ⟨fun i slot ts hslot => hfound _ _ ts ?_, fun field ts => hfound _ _ ts ?_⟩
  · rw [callerPlace?_of_knownCall hbuilt hd]
    simp [hslot]
  · rw [callerPlace?_of_knownCall hbuilt hd]

/-! ### A callee that keeps its entry state, and one that does not -/

def identityCall (id : EdgeId) (source : NodeId) : Edge × Call :=
  (⟨id, source, 6, .call ⟨creator, 1, identity, .static⟩⟩, ⟨creator, 1, identity, .static⟩)

def createdSession : Session (MachineState (Powerset Nat)) Unit :=
  (creatorAnalysis.analyze 10 creator (creatorEntry 0) ()).final (.start .never)

def createdTracer : Backtracer (MachineState (Powerset Nat)) Unit (Powerset Nat) :=
  creatorAnalysis.backtracer createdSession.cache .empty fun _ _ => false

/-- The argument of the identity is traced to the stack of the creator. -/
theorem callers_found_creator :
    ∃ caller callee ts, createdSession.cache.get? creator (creatorEntry 0) () = some caller ∧
      caller.reached.firstAt? 8 = some ⟨8, ⟨[], [.singleton 0]⟩, .empty⟩ ∧
      createdSession.cache.get? identity ⟨6, ⟨[.singleton 0], []⟩, .empty⟩ () = some callee ∧
      creatorGraph.enteringIntraprocedural 6 = [] ∧
      (createdTracer.backtrace () ⟨⟨.var 0, 6⟩, ⟨identity, 0⟩, []⟩).result = .ok ts ∧
      ⟨⟨.stack 0, 8⟩, ⟨creator, 0⟩, []⟩ ∈ ts := by
  have hvisited : creatorAnalysis.Visited (fun _ => True) createdSession := .analyze _ _ _ _ (.start trivial)
  have hstate : (createdSession.cache.get? creator (creatorEntry 0) ()).bind (·.reached.firstAt? 8) =
      some ⟨8, ⟨[], [.singleton 0]⟩, .empty⟩ := by
    decide +kernel
  obtain ⟨caller, hcaller, hs⟩ := Option.bind_eq_some_iff.1 hstate
  have hsome : (createdSession.cache.get? identity ⟨6, ⟨[.singleton 0], []⟩, .empty⟩ ()).isSome = true := by
    decide +kernel
  obtain ⟨callee, hcallee⟩ := Option.isSome_iff_exists.1 hsome
  have hok : (createdTracer.backtrace () ⟨⟨.var 0, 6⟩, ⟨identity, 0⟩, []⟩).result.isOk = true := by
    decide +kernel
  have hentering : creatorGraph.enteringIntraprocedural 6 = [] := by decide +kernel
  cases hts : (createdTracer.backtrace () ⟨⟨.var 0, 6⟩, ⟨identity, 0⟩, []⟩).result with
  | error f =>
    rw [hts] at hok
    cases hok
  | ok ts =>
    refine ⟨caller, callee, ts, hcaller, hs, hcallee, hentering, rfl, ?_⟩
    have hd : identityCall 4 8 ∈ creatorGraph.knownCalls 8 := by decide +kernel
    have hcreator : createdSession.cache.find? creator (creatorEntry 0) () = some ⟨creator, 0⟩ := by
      decide +kernel
    have hidentity : createdSession.cache.find? identity ⟨6, ⟨[.singleton 0], []⟩, .empty⟩ () =
        some ⟨identity, 0⟩ := by
      decide +kernel
    have hfound := callers_found counting (FlowGraph.built_assemble _) .initial hvisited hd hcaller hcreator
      hs rfl hcallee hidentity (.inl hentering) .empty (fun _ _ => false) ()
    exact hfound.1 0 0 ts (by decide +kernel) (by decide +kernel) hts

/-- The identity may replace its argument by a field before it returns it. -/
def reentrantGraph : FlowGraph :=
  (FlowGraph.assemble [.method creator, .method identity,
    .instruction identity (some 0) (some 1) (.getStatic "B" false),
    .instruction identity (some 1) (some 0) (.store 0 false),
    .instruction identity (some 0) (some 2) (.load 0 false),
    .instruction identity (some 2) (some (-1)) (.ret 1),
    .instruction creator (some 0) (some 1) (.getStatic "A" false),
    .invoke creator (some 1) (some 2) .static identity,
    .instruction creator (some 2) (some (-1)) (.ret 0)]).graph

def reentrantSession : Session (MachineState (Powerset Nat)) Unit :=
  ((counting.joining reentrantGraph .initial).analyze 10 creator ⟨3, .empty, labelledFields⟩ ()).final
    (.start .never)

def reentrantTracer : Backtracer (MachineState (Powerset Nat)) Unit (Powerset Nat) :=
  (counting.joining reentrantGraph .initial).backtracer reentrantSession.cache .empty fun _ _ => false

/-- The label of the field has been merged into the argument at the entry, and the caller is not found. -/
theorem caller_lost_reentrant :
    reentrantGraph.Built ∧
      (counting.joining reentrantGraph .initial).Visited (fun _ => True) reentrantSession ∧
      identityCall 6 9 ∈ reentrantGraph.knownCalls 9 ∧
      ∃ caller callee, reentrantSession.cache.get? creator ⟨3, .empty, labelledFields⟩ () = some caller ∧
        reentrantSession.cache.find? creator ⟨3, .empty, labelledFields⟩ () = some ⟨creator, 0⟩ ∧
        caller.reached.firstAt? 9 = some ⟨9, ⟨[], [.singleton 7]⟩, labelledFields⟩ ∧
        MachineState.reduce ⟨9, ⟨[], [.singleton 7]⟩, labelledFields⟩ 6 (identityCall 6 9).2 =
          .ok ⟨6, ⟨[.singleton 7], []⟩, labelledFields⟩ ∧
        reentrantSession.cache.get? identity ⟨6, ⟨[.singleton 7], []⟩, labelledFields⟩ () = some callee ∧
        reentrantSession.cache.find? identity ⟨6, ⟨[.singleton 7], []⟩, labelledFields⟩ () =
          some ⟨identity, 0⟩ ∧
        identity.argumentSlot? 0 = some 0 ∧
        reentrantTracer.above ⟨9, ⟨[], [.singleton 7]⟩, labelledFields⟩ (.stack 0) = true ∧
        (reentrantTracer.backtrace () ⟨⟨.var 0, 6⟩, ⟨identity, 0⟩, []⟩).result.toOption =
          some [⟨⟨.stack 0, 7⟩, ⟨identity, 0⟩, []⟩] := by
  have hstate : (reentrantSession.cache.get? creator ⟨3, .empty, labelledFields⟩ ()).bind
      (·.reached.firstAt? 9) = some ⟨9, ⟨[], [.singleton 7]⟩, labelledFields⟩ := by
    decide +kernel
  obtain ⟨caller, hcaller, hs⟩ := Option.bind_eq_some_iff.1 hstate
  have hsome : (reentrantSession.cache.get? identity ⟨6, ⟨[.singleton 7], []⟩, labelledFields⟩ ()).isSome =
      true := by
    decide +kernel
  obtain ⟨callee, hcallee⟩ := Option.isSome_iff_exists.1 hsome
  refine ⟨FlowGraph.built_assemble _, .analyze _ _ _ _ (.start trivial), by decide +kernel, caller, callee,
    hcaller, by decide +kernel, hs, rfl, hcallee, by decide +kernel, by decide +kernel, by decide +kernel, ?_⟩
  decide +kernel

end Interpreter

end BytecodeFlow
