import BytecodeFlow.Proofs.BackwardClosure
import BytecodeFlow.Proofs.CachedRuns
import BytecodeFlow.Proofs.Termination

/-! # The states of a trace

However a trace ends, backward steps lead to every state that it has reached. What holds of the initial states and is
kept by the backward steps therefore holds of all of them. In this way every state but the initial ones is seen to ask
for a value above the threshold that the block of the state holds, and never for a heap field.
-/
namespace BytecodeFlow

/-! ### Locations before an instruction -/

namespace Instruction

variable {i : Instruction} {l q : MemoryLocation}

def HeapFree (r : Except Fault (List MemoryLocation)) : Prop :=
  ∀ places, r = .ok places → ∀ q ∈ places, q.isHeap = false

theorem HeapFree.singleton (h : q.isHeap = false) : HeapFree (.ok [q]) := by
  rintro _ ⟨⟩
  exact List.forall_mem_singleton.2 h

theorem HeapFree.map {α : Type} {r : Except Fault α} {f : α → List MemoryLocation}
    (h : ∀ a, r = .ok a → ∀ q ∈ f a, q.isHeap = false) : HeapFree (r.map f) := by
  intro places hplaces
  cases r with
  | error e => cases hplaces
  | ok a =>
    cases hplaces
    exact h a rfl

theorem heapFree_popped {limits : Limits} {count : Nat} : HeapFree (popped limits count) := by
  intro places hplaces q hq
  unfold popped at hplaces
  split at hplaces
  · cases hplaces
    obtain ⟨index, _, rfl⟩ := List.mem_map.1 hq
    rfl
  · cases hplaces

theorem heapFree_deeper {limits : Limits} {index count : Nat} : HeapFree (deeper limits index count) := by
  exact .map fun k _ => List.forall_mem_singleton.2 rfl

theorem heapFree_shifted {limits : Limits} (hl : l.isHeap = false) : HeapFree (i.shifted limits l) := by
  unfold shifted
  split
  · split
    · exact heapFree_deeper
    · exact heapFree_popped
  · exact .singleton hl

theorem heapFree_beneath {limits : Limits} (hl : l.isHeap = false) : HeapFree (i.beneath limits l) := by
  unfold beneath
  split
  · exact heapFree_deeper
  · exact .singleton hl

/-- A value outside of the heap does not come from the heap. -/
theorem heapFree_predecessors {limits : Limits} {reaches : Bool} (hl : l.isHeap = false) :
    HeapFree (i.predecessors reaches l limits) := by
  have hshifted : HeapFree (i.shifted limits l) := heapFree_shifted hl
  unfold predecessors
  cases hop : i.operation with
  | ret | increment => exact .singleton hl
  | dup | dupX1 | dupX2 | dup2 | dup2X1 | dup2X2 | swap =>
    simp only
    split
    · exact hshifted
    · exact .map fun slot _ => List.forall_mem_singleton.2 rfl
  | arrayLoad =>
    simp only
    split
    · exact hshifted
    · change HeapFree (popped .ideal 2)
      exact heapFree_popped
  | load variableIndex =>
    simp only
    split
    · exact hshifted
    · intro places hplaces
      obtain ⟨front, hfront, hplaces⟩ := bind_eq_ok.1 hplaces
      obtain ⟨k, _, hplaces⟩ := bind_eq_ok.1 hplaces
      cases hplaces
      exact List.forall_mem_append.2 ⟨hshifted front hfront, List.forall_mem_singleton.2 rfl⟩
  | store variableIndex =>
    simp only
    split
    · split
      · exact heapFree_popped
      · split
        · refine .map fun second _ => ?_
          split <;> exact List.forall_mem_singleton.2 rfl
        · exact .singleton hl
    · exact heapFree_beneath hl
  | getStatic field =>
    simp only
    split
    · exact hshifted
    · exact .map fun front hfront =>
        List.forall_mem_append.2 ⟨hshifted front hfront, List.forall_mem_singleton.2 rfl⟩
  | putStatic field =>
    simp only
    split
    · exact heapFree_popped
    · exact heapFree_beneath hl
  | putField => exact heapFree_beneath hl
  | invoke =>
    intro places hplaces
    obtain ⟨front, hfront, hplaces⟩ := bind_eq_ok.1 hplaces
    cases reaches with
    | false =>
      cases hplaces
      exact hshifted _ hfront
    | true =>
      obtain ⟨slots, hslots, hplaces⟩ := bind_eq_ok.1 hplaces
      cases hplaces
      exact List.forall_mem_append.2 ⟨hshifted front hfront, heapFree_popped slots hslots⟩
  | arrayStore | simple | getField | new | branch | switch => exact hshifted

end Instruction

namespace Backtracer

variable {S P V : Type} [DecidableEq S] [DecidableEq P] [Located S] [Observable S V] [Domain S] [Domain V]
  {B : Backtracer S P V} {p : P} {t u : TracedState S} {place : MemoryLocation} {n : NodeId} {fuel : Nat}
  {σ : TraceSession}

/-! ### What a trace has reached -/

def reached (B : Backtracer S P V) (fuel : Nat) (place : MemoryLocation) (n : NodeId) (p : P) (σ : TraceSession) :
    OrderedSet (TracedState S) :=
  (B.analysis.run p fuel (B.start place n) σ).2.1.reached

theorem reached_of_trace {r : BackwardTrace S} {τ : TraceSession} (h : B.trace fuel place n p σ = .ok r τ) :
    r.reached = B.reached fuel place n p σ := by
  unfold reached
  rcases hrun : B.analysis.run p fuel (B.start place n) σ with ⟨o, q, τ'⟩
  rw [trace_eq hrun] at h
  cases o with
  | completed | aborted =>
    obtain ⟨rfl, _⟩ := EStateM.Result.ok.inj h
    rfl
  | halted e => cases h

theorem leadsTo_of_mem_reached (h : t ∈ B.reached fuel place n p σ) : B.LeadsTo p place n t := by
  let Led (q : Search (OrderedSet (TracedState S)) (TracedState S)) (_ : TraceSession) : Prop :=
    q.All (B.LeadsTo p place n)
  have hstep : ∀ q σ q' σ', Led q σ → B.analysis.iterate p q σ = .next q' σ' → Led q' σ' := by
    intro q σ q' σ' hq hnext
    obtain ⟨σ₁, u, w, ts, _, hpop, hrecord, rfl⟩ := Analysis.iterate_next hnext
    obtain ⟨t₀, ht₀, hpath⟩ := hq.pending u ((Waitlist.mem_of_pop? hpop).2 (.inl rfl))
    have hnew : ∀ y ∈ ts, B.LeadsTo p place n y := fun y hy =>
      ⟨t₀, ht₀, hpath.tail ⟨ts, result_of_recordStep hrecord, hy⟩⟩
    constructor
    · intro y hy
      rcases Search.reaches_incorporateAll_contained.1 hy with hy | hy
      · exact hq.reached y hy
      · exact hnew y hy
    · intro y hy
      rcases Search.awaits_incorporateAll_contained.1 hy with hy | hy
      · exact hq.pending y ((Waitlist.mem_of_pop? hpop).2 (.inr hy))
      · exact hnew y hy.1
  have hstart : Led (B.start place n) σ :=
    ⟨fun y hy => ⟨y, reaches_start.1 hy, .refl⟩, fun y hy => ⟨y, awaits_start.1 hy, .refl⟩⟩
  obtain ⟨q, _, hq, heq⟩ := Analysis.run_reached Led hstep (Prod.eta _).symm hstart
  apply hq.reached t
  unfold Search.Reaches
  rw [← heq]
  exact h

theorem step_of_stepsTo (h : B.StepsTo p t u) : B.Step p t u := by
  obtain ⟨ts, hts, hu⟩ := h
  exact (mem_backtrace hts).1 hu

/-- Only locations outside of the heap have backward steps. -/
theorem isHeap_of_stepsTo (h : B.StepsTo p t u) : t.site.place.isHeap = false := by
  obtain ⟨ts, hts, _⟩ := h
  cases hheap : t.site.place.isHeap with
  | false => rfl
  | true =>
    unfold backtrace at hts
    rw [if_pos hheap] at hts
    cases hts

/-! ### Values above the threshold -/

def Filed (B : Backtracer S P V) : Prop :=
  ∀ id n s, (B.cache.reachedOf id).firstAt? n = some s → location s = n

def Recalled (B : Backtracer S P V) (c : CallRecord S) : Prop :=
  (B.cache.reachedOf c.caller).firstAt? (location c.state) = some c.state

/-- The first state of the block at the node holds a value above the threshold at the location, which is not a heap
field. -/
def Sourced (B : Backtracer S P V) (t : TracedState S) : Prop :=
  (∃ s, (B.cache.reachedOf t.block).firstAt? t.site.node = some s ∧ B.above s t.site.place = true) ∧
    t.site.place.isHeap = false

omit [DecidableEq S] [DecidableEq P] [Observable S V] [Domain S] [Domain V] in
theorem Filed.firstAt?_location (hB : B.Filed) {id : BlockId} {s : S}
    (hs : (B.cache.reachedOf id).firstAt? n = some s) : (B.cache.reachedOf id).firstAt? (location s) = some s := by
  rw [hB id n s hs]
  exact hs

omit [DecidableEq S] [DecidableEq P] [Located S] [Observable S V] [Domain S] [Domain V] in
theorem firstAt?_of_mem_blocksOf {m : Method} {b : BlockId × Block S} {s : S} (hb : b ∈ B.cache.blocksOf m)
    (hs : b.2.reached.firstAt? n = some s) : (B.cache.reachedOf b.1).firstAt? n = some s := by
  rw [BlockCache.reachedOf, (BlockCache.mem_blocksOf.1 hb).2]
  exact hs

omit [DecidableEq S] [DecidableEq P] [Located S] [Observable S V] [Domain S] [Domain V] in
theorem isHeap_of_callerPlace? (h : B.callerPlace? t = some place) : place.isHeap = false := by
  unfold callerPlace? at h
  split at h
  · obtain ⟨_, _, rfl⟩ := Option.map_eq_some_iff.1 h
    rfl
  · obtain rfl := Option.some.inj h
    rfl
  · cases h
  · cases h

omit [DecidableEq S] [DecidableEq P] [Located S] [Observable S V] [Domain S] [Domain V] in
theorem Precedes.isHeap {e : Edge} {explained : Bool} {l : MemoryLocation} (hplace : place.isHeap = false)
    (h : B.Precedes e explained place l) : l.isHeap = false := by
  obtain ⟨places, hplaces, hl⟩ := h
  unfold placesBefore at hplaces
  split at hplaces
  · split at hplaces
    · cases hplaces
      cases hl
    · exact Instruction.heapFree_predecessors hplace places hplaces l hl
  · exact Instruction.HeapFree.singleton hplace places hplaces l hl
  · cases hplaces
    cases hl

/-- Every backward step leads to a value above the threshold, and remembers callers by their first states. -/
theorem Filed.step (hB : B.Filed) (h : ∀ c ∈ t.calls, B.Recalled c) (hheap : t.site.place.isHeap = false)
    (hstep : B.Step p t u) : B.Sourced u ∧ ∀ c ∈ u.calls, B.Recalled c := by
  cases hstep with
  | edge he hparent hsteps hl habove =>
    exact ⟨⟨⟨_, hB.firstAt?_location hparent, habove⟩, hl.isHeap hheap⟩, h⟩
  | callee he hparent hcurrent hvar hd henters =>
    obtain ⟨returned, _, hreturned, habove, _⟩ := henters.explains
    refine ⟨⟨⟨returned, hreturned, habove⟩, hheap⟩, fun c hc => ?_⟩
    rcases List.mem_cons.1 hc with rfl | hc
    · exact hB.firstAt?_location hparent
    · exact h c hc
  | @remembered place c rest hentry hplace hcalls habove =>
    rw [hcalls] at h
    exact ⟨⟨⟨c.state, h c List.mem_cons_self, habove⟩, isHeap_of_callerPlace? hplace⟩,
      fun c hc => h c (List.mem_cons_of_mem _ hc)⟩
  | cached hentry hplace hcalls hcalled hd hb hcaller hreduce habove =>
    have hfirst := hB.firstAt?_location (firstAt?_of_mem_blocksOf hb hcaller)
    exact ⟨⟨⟨_, hfirst, habove⟩, isHeap_of_callerPlace? hplace⟩, nofun⟩

omit [DecidableEq S] [DecidableEq P] [Located S] [Domain S] in
theorem calls_of_mem_initial (h : t ∈ B.initial place n) : t.calls = [] := by
  unfold initial at h
  split at h
  · cases h
  · obtain ⟨_, _, rfl⟩ := List.mem_map.1 h
    rfl

theorem Filed.leadsTo (hB : B.Filed) (h : B.LeadsTo p place n t) :
    (t ∈ B.initial place n ∨ B.Sourced t) ∧ ∀ c ∈ t.calls, B.Recalled c := by
  obtain ⟨t₀, ht₀, hpath⟩ := h
  induction hpath with
  | refl =>
    refine ⟨.inl ht₀, ?_⟩
    rw [calls_of_mem_initial ht₀]
    exact nofun
  | tail _ hstep ih =>
    obtain ⟨hsourced, hcalls⟩ := hB.step ih.2 (isHeap_of_stepsTo hstep) (step_of_stepsTo hstep)
    exact ⟨.inr hsourced, hcalls⟩

end Backtracer

theorem Interprocedural.Visited.filed {S P V : Type} [DecidableEq S] [DecidableEq P] [Located S]
    {A : Interprocedural S P} {allowed : AbortSignal → Prop} {σ : Session S P} (h : A.Visited allowed σ) (threshold : V)
    (extra : ExtraReach) : (A.backtracer σ.cache threshold extra).Filed := by
  intro id n s hs
  change (σ.cache.reachedOf id).firstAt? n = some s at hs
  unfold BlockCache.reachedOf at hs
  cases hb : σ.cache.block? id with
  | none =>
    rw [hb] at hs
    cases hs
  | some b =>
    rw [hb] at hs
    obtain ⟨_, _, hcomputed⟩ := h.stored.of_block? hb
    exact (LocatedStates.mem_of_firstAt? hcomputed.indexed hs).2

namespace Backtracer

/-- Only values above the threshold are traced. Whatever has been analysed, at every state that a trace has reached,
the initial ones aside, the block has a first state at the node, and this state holds a value at the location that is
not below the threshold. The location is not a heap field. -/
theorem reached_above_threshold {S P V : Type} [DecidableEq S] [DecidableEq P] [Located S] [Observable S V] [Domain S]
    [Domain V] {A : Interprocedural S P} {σ : Session S P} (hσ : A.Visited (fun _ => True) σ)
    (hrefl : ∀ v : V, Domain.le v v = true) (threshold : V) (extra : ExtraReach) {fuel : Nat} {place : MemoryLocation}
    {n : NodeId} {p : P} {ts : TraceSession} {t : TracedState S}
    (ht : t ∈ (A.backtracer σ.cache threshold extra).reached fuel place n p ts)
    (hnot : t ∉ (A.backtracer σ.cache threshold extra).initial place n) :
    (∃ s v, (σ.cache.reachedOf t.block).firstAt? t.site.node = some s ∧ valueAt? s t.site.place = some v ∧
      Domain.le v threshold = false) ∧ t.site.place.isHeap = false := by
  obtain ⟨hsourced, _⟩ := (hσ.filed threshold extra).leadsTo (leadsTo_of_mem_reached ht)
  obtain ⟨⟨s, hs, habove⟩, hheap⟩ := hsourced.resolve_left hnot
  obtain ⟨v, hv⟩ := Option.isSome_iff_exists.1 (isSome_of_above (hrefl _) habove)
  refine ⟨⟨s, v, hs, hv, ?_⟩, hheap⟩
  unfold above MemoryLocation.valueIn at habove
  rw [hv] at habove
  change (!Domain.le v threshold) = true at habove
  simpa using habove

end Backtracer

namespace Interpreter

/-- Traces what holds more than the label of the second field. -/
def reentrantSelective : Backtracer (MachineState (Powerset Nat)) Unit (Powerset Nat) :=
  (counting.joining reentrantGraph .initial).backtracer reentrantSession.cache (.singleton 8) fun _ _ => false

/-- The trace of a result passes over the field whose label is below the threshold, and ends at the other one. -/
theorem reached_above_threshold_reentrant :
    ∃ r τ, reentrantSelective.trace 20 (.stack 0) 10 () (.start .never) = .ok r τ ∧
      r.reached.toList.map (·.site) =
        [⟨.stack 0, 10⟩, ⟨.stack 0, 4⟩, ⟨.stack 0, 8⟩, ⟨.var 0, 6⟩, ⟨.stack 0, 9⟩, ⟨.static "A", 3⟩] ∧
      ⟨⟨.static "A", 3⟩, ⟨creator, 0⟩, []⟩ ∈ r.reached ∧
      ⟨⟨.static "A", 3⟩, ⟨creator, 0⟩, []⟩ ∉ reentrantSelective.initial (.stack 0) 10 ∧
      ∃ s v, (reentrantSession.cache.reachedOf ⟨creator, 0⟩).firstAt? 3 = some s ∧
        valueAt? s (.static "A") = some v ∧ Domain.le v (.singleton 8) = false := by
  have hcomputed : (match reentrantSelective.trace 20 (.stack 0) 10 () (.start .never) with
      | .ok r _ => r.reached.toList.map (·.site)
      | .error _ _ => []) =
        [⟨.stack 0, 10⟩, ⟨.stack 0, 4⟩, ⟨.stack 0, 8⟩, ⟨.var 0, 6⟩, ⟨.stack 0, 9⟩, ⟨.static "A", 3⟩] := by
    decide +kernel
  have hmem : ⟨⟨.static "A", 3⟩, ⟨creator, 0⟩, []⟩ ∈
      reentrantSelective.reached 20 (.stack 0) 10 () (.start .never) := by decide +kernel
  have hnot : ⟨⟨.static "A", 3⟩, ⟨creator, 0⟩, []⟩ ∉ reentrantSelective.initial (.stack 0) 10 := by decide +kernel
  have hvisited : (counting.joining reentrantGraph .initial).Visited (fun _ => True) reentrantSession :=
    .analyze _ _ _ _ (.start trivial)
  cases htrace : reentrantSelective.trace 20 (.stack 0) 10 () (.start .never) with
  | error e τ =>
    rw [htrace] at hcomputed
    cases hcomputed
  | ok r τ =>
    rw [htrace] at hcomputed
    refine ⟨r, τ, rfl, hcomputed, ?_, hnot, ?_⟩
    · rw [Backtracer.reached_of_trace htrace]
      exact hmem
    · have hrefl : ∀ v : Powerset Nat, Domain.le v v = true := ValueLattice.le_refl
      exact (Backtracer.reached_above_threshold hvisited hrefl (.singleton 8) (fun _ _ => false) hmem hnot).1

end Interpreter

end BytecodeFlow
