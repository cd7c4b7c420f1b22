import BytecodeFlow.Proofs.Backsteps
import BytecodeFlow.Proofs.Domination
import BytecodeFlow.Proofs.Labels

/-! # Tracing a label back loses nothing

A backward step looks at the final state of a block and at the edges that lead to its node. The label that
it is asked for came with an older, smaller state; but since everything that was generated lies below what
is reached in the end, the label is still there at the source of some edge, or at the exit of some callee,
and the step finds it. The only other way is an invocation that was not followed and that generates the
label itself.
-/
namespace BytecodeFlow

/-- Calls leave nodes with an invocation, and every invocation there takes the parameters of the target and
gives its results. -/
def FlowGraph.CallsFit (g : FlowGraph) : Prop :=
  ∀ e ∈ g.edges, ∀ c ∈ e.label.call?,
    (∃ e' ∈ g.leavingIntraprocedural e.source, e'.label.isInvoke = true) ∧
    ∀ e' ∈ g.leavingIntraprocedural e.source, ∀ i ∈ e'.label.instruction?, i.isInvoke = true →
      i.pops = c.target.parameterSlots ∧ i.pushes = c.target.descriptor.resultSlots

namespace MachineState

variable {α P : Type} [Ord α] [Std.TransOrd α] [Std.LawfulEqOrd α] [DecidableEq α] [DecidableEq P]

/-- A program and a cache of its blocks through which labels can be traced. -/
structure Traceable (I : Interpreter (Powerset α)) (g : FlowGraph) (options : Options)
    (c : BlockCache (MachineState (Powerset α)) P) : Prop where
  monotone : I.Monotone
  conservative : I.Conservative
  caught : I.caught = .empty
  regular : g.Regular
  fit : g.CallsFit
  balanced : Balanced (I.joining g options) c
  complete : ∀ m k p b, c.get? m k p = some b → (I.joining g options).Complete False c m k p b

abbrev tracer (I : Interpreter (Powerset α)) (g : FlowGraph) (options : Options)
    (c : BlockCache (MachineState (Powerset α)) P) (extra : ExtraReach) :
    Backtracer (MachineState (Powerset α)) P (Powerset α) :=
  (I.joining g options).backtracer c .empty extra

def Found (c : BlockCache (MachineState (Powerset α)) P) (u : TracedState (MachineState (Powerset α))) (x : α) :
    Prop :=
  ∃ r, (c.reachedOf u.block).firstAt? u.site.node = some r ∧ r.Holds u.site.place x

/-- The edge is an invocation that generates the label in a slot of its result. -/
def InvokedAt (I : Interpreter (Powerset α)) (b : Block (MachineState (Powerset α))) (e : Edge)
    (l : MemoryLocation) (x : α) : Prop :=
  ∃ i dispatch target r, e.label = .instruction i ∧ i.operation = .invoke dispatch target ∧
    b.reached.firstAt? e.source = some r ∧ I.Generates target (r.frame.stack.take i.pops) x ∧
    ∃ j < i.pushes, l = .stack j

/-- The results of the steps into the callees of a node, one for each known call. A local variable is not
traced into any callee. -/
def CalleesTraced (B : Backtracer (MachineState (Powerset α)) P (Powerset α)) (p : P)
    (t : TracedState (MachineState (Powerset α))) (r s : MachineState (Powerset α))
    (steps : List (CalleeStep (MachineState (Powerset α)))) : Prop :=
  steps = [] ∧ (∃ j, t.site.place = .var j) ∨
    (∀ j, t.site.place ≠ .var j) ∧
      List.Forall₂ (fun d step => (B.calleeStep p t r s d.1 d.2).result = .ok step)
        (B.graph.knownCalls r.node) steps

variable {I : Interpreter (Powerset α)} {g : FlowGraph} {options : Options}
  {c : BlockCache (MachineState (Powerset α)) P} {m : Method} {k r s s₀ : MachineState (Powerset α)} {p : P}
  {b : Block (MachineState (Powerset α))} {d : Edge × Call} {e : Edge} {n : NodeId}
  {t : TracedState (MachineState (Powerset α))} {x : α} {extra : ExtraReach}

/-- The state of a block at a node is the only one there. -/
theorem firstAt?_of_mem (hb : (I.joining g options).Complete False c m k p b)
    (hr : r ∈ b.reached.all.toList) : b.reached.firstAt? r.node = some r :=
  LocatedStates.firstAt?_of_unique hb.indexed hr fun r' hr' hnode => hb.single unifying_join r' hr' r hr hnode

omit [Std.LawfulEqOrd α] in
/-- The target of a call has a block, and its exits are expanded to what the block of the caller covers. -/
theorem Traceable.called (h : Traceable I g options c) (hb : c.get? m k p = some b)
    (hr : r ∈ b.reached.all.toList) (he : e ∈ g.leavingIntraprocedural r.node)
    (hinvoke : e.label.isInvoke = true) (hd : d ∈ g.knownCalls r.node) :
    ∃ k' b', r.reduce d.1.target d.2 = .ok k' ∧ c.get? d.2.target k' p = some b' ∧
      ∀ y ∈ b'.exits, ∃ t, r.expand y d.2 = .ok t ∧ b.Covers (relocate e.target t) := by
  obtain ⟨l, hl, hcovers⟩ := (h.complete m k p b hb).followed hr he
  obtain ⟨hfalse, _⟩ | ⟨k', b', hreduce, hb', hexits⟩ := hl.call hinvoke hd
  · exact hfalse.elim
  · refine ⟨k', b', hreduce, hb', fun y hy => ?_⟩
    obtain ⟨t, ht, hexpand⟩ := hexits y hy
    exact ⟨t, hexpand, hcovers t ht⟩

omit [Std.LawfulEqOrd α] in
/-- A step into a callee succeeds, and at a place outside of the result it says so. -/
theorem Traceable.calleeStep_ok (h : Traceable I g options c) (hb : c.get? m k p = some b)
    (hr : r ∈ b.reached.all.toList) (hd : d ∈ g.knownCalls r.node) (hcalls : t.calls = [])
    (extra : ExtraReach) :
    ∃ step, ((tracer I g options c extra).calleeStep p t r s d.1 d.2).result = .ok step ∧
      (Backtracer.outsideResult d.2.target t.site.place = true → step = .unaffected) := by
  obtain ⟨hedge, hsource, hlabel, _⟩ := FlowGraph.mem_knownCalls.1 hd
  obtain ⟨⟨e, he, hinvoke⟩, _⟩ := h.fit d.1 hedge d.2 (by simp [hlabel, Label.call?])
  rw [hsource] at he
  obtain ⟨k', b', hreduce, hb', hexits⟩ := h.called hb hr he hinvoke hd
  obtain ⟨id, hfind, _, _, hreached⟩ := BlockCache.find?_of_get? hb'
  rw [Backtracer.result_calleeStep (by simp [hcalls]) hreduce hfind, hcalls]
  by_cases houtside : Backtracer.outsideResult d.2.target t.site.place = true
  · exact ⟨.unaffected, by rw [if_pos houtside], fun _ => rfl⟩
  · rw [if_neg houtside]
    suffices hok : ∃ step, _ = Except.ok step by
      obtain ⟨step, hstep⟩ := hok
      exact ⟨step, hstep, fun hout => absurd hout houtside⟩
    cases hexit : (tracer I g options c extra).graph.returnExit? d.2.target with
    | none => exact ⟨_, rfl⟩
    | some exit =>
      simp only
      cases hfirst : ((tracer I g options c extra).cache.reachedOf id).firstAt? exit with
      | none => exact ⟨_, rfl⟩
      | some returned =>
        have hcomplete := h.complete _ _ _ _ hb'
        have hfirst' : b'.reached.firstAt? exit = some returned := hreached ▸ hfirst
        obtain ⟨hmem, hnode⟩ := LocatedStates.mem_of_firstAt? hcomplete.indexed hfirst'
        obtain ⟨u, hexpand, _⟩ := hexits returned
          (hcomplete.mem_exits.2 ⟨hmem, hexit.trans (congrArg some hnode.symm)⟩)
        have hexpand' : (tracer I g options c extra).expand r returned d.1.target d.2 = .ok u := hexpand
        simp only [hexpand']
        split <;> exact ⟨_, rfl⟩

omit [DecidableEq P] in
theorem above_of_holds {l : MemoryLocation} (extra : ExtraReach) (h : r.Holds l x) :
    (tracer I g options c extra).above r l = true := by
  have hmem : x ∈ l.valueIn r (Powerset.empty : Powerset α) := mem_valueIn.2 h
  have hnot : ¬ Domain.le (l.valueIn r (Powerset.empty : Powerset α)) (Powerset.empty : Powerset α) = true :=
    fun hle => Powerset.not_mem_empty x (Powerset.subset_iff.1 hle x hmem)
  change (!Domain.le (l.valueIn r (Powerset.empty : Powerset α)) (Powerset.empty : Powerset α)) = true
  simp [hnot]

omit [Std.LawfulEqOrd α] in
/-- The steps into the callees of a node succeed. -/
theorem Traceable.calleeSteps_ok (h : Traceable I g options c) (hb : c.get? m k p = some b)
    (hblock : c.reachedOf t.block = b.reached) (hs : b.reached.firstAt? t.site.node = some s)
    (hr : r ∈ b.reached.all.toList) (hcalls : t.calls = []) (extra : ExtraReach) :
    ∃ steps, ((tracer I g options c extra).calleeSteps p t r.node r).result = .ok steps ∧
      CalleesTraced (tracer I g options c extra) p t r s steps := by
  by_cases hvar : ∃ j, t.site.place = .var j
  · obtain ⟨j, hj⟩ := hvar
    exact ⟨[], Backtracer.result_calleeSteps_var hj, .inl ⟨rfl, j, hj⟩⟩
  · have hvar : ∀ j, t.site.place ≠ .var j := fun j hj => hvar ⟨j, hj⟩
    obtain ⟨steps, hsteps⟩ : ∃ steps, (g.knownCalls r.node).mapM (fun d =>
        ((tracer I g options c extra).calleeStep p t r s d.1 d.2).result) = .ok steps := by
      refine exists_mapM_ok fun d hd => ?_
      obtain ⟨step, hstep, _⟩ := h.calleeStep_ok hb hr hd hcalls extra
      exact ⟨step, hstep⟩
    have hs' : ((tracer I g options c extra).cache.reachedOf t.block).firstAt? t.site.node = some s := by
      rw [← hs, ← hblock]
      rfl
    exact ⟨steps, (Backtracer.result_calleeSteps r.node hvar hs').trans hsteps,
      .inr ⟨hvar, mapM_eq_ok.1 hsteps⟩⟩

omit [Std.LawfulEqOrd α] in
theorem Traceable.result_edgeSteps (h : Traceable I g options c) (hedge : e ∈ g.edges)
    {steps : List (CalleeStep (MachineState (Powerset α)))}
    (hfirst : (c.reachedOf t.block).firstAt? e.source = some r)
    (hsteps : ((tracer I g options c extra).calleeSteps p t e.source r).result = .ok steps) :
    ((tracer I g options c extra).edgeSteps p t e).result = .ok (steps.filterMap CalleeStep.entered? ++
      (tracer I g options c extra).statesFor ((tracer I g options c extra).sourcesBefore e
        ((tracer I g options c extra).explained e.source steps) t.site.place) r t.block t.calls) := by
  rw [Backtracer.result_edgeSteps_some hfirst hsteps, Backtracer.placesBefore_ideal rfl fun i hlabel =>
    Instruction.swap_of_regular (h.regular.instruction hedge hlabel)]
  rfl

omit [Std.LawfulEqOrd α] in
/-- The steps along an edge succeed. -/
theorem Traceable.edgeSteps_ok (h : Traceable I g options c) (hb : c.get? m k p = some b)
    (hblock : c.reachedOf t.block = b.reached) (hs : b.reached.firstAt? t.site.node = some s)
    (hcalls : t.calls = []) (hedge : e ∈ g.edges) (extra : ExtraReach) :
    ∃ us, ((tracer I g options c extra).edgeSteps p t e).result = .ok us := by
  cases hfirst : ((tracer I g options c extra).cache.reachedOf t.block).firstAt? e.source with
  | none => exact ⟨[], Backtracer.result_edgeSteps_none hfirst⟩
  | some r =>
    have hfirst' : b.reached.firstAt? e.source = some r := hblock ▸ hfirst
    obtain ⟨hr, hnode⟩ := LocatedStates.mem_of_firstAt? (h.complete m k p b hb).indexed hfirst'
    obtain ⟨steps, hsteps, _⟩ := h.calleeSteps_ok hb hblock hs hr hcalls extra
    rw [show r.node = e.source from hnode] at hsteps
    exact ⟨_, h.result_edgeSteps hedge hfirst hsteps⟩

/-- A label that an edge itself contributes is found before the edge, unless an invocation generates it. -/
theorem Traceable.found_along (h : Traceable I g options c) {l : MemoryLocation} {u : MachineState (Powerset α)}
    {steps : List (CalleeStep (MachineState (Powerset α)))}
    (hcomplete : (I.joining g options).Complete False c m k p b)
    (hr : r ∈ b.reached.all.toList) (he : e ∈ g.leavingIntraprocedural r.node) (hbelow : s₀.Below r)
    (hexplained : e.label.isInvoke = true → (tracer I g options c extra).explained r.node steps = false)
    (halong : s₀.along I e = .ok [u]) (hu : u.Holds l x) :
    (∃ q ∈ (tracer I g options c extra).sourcesBefore e ((tracer I g options c extra).explained r.node steps) l,
      r.Holds q x) ∨ InvokedAt I b e l x := by
  obtain ⟨hedge, hsource, _⟩ := FlowGraph.mem_leavingIntraprocedural.1 he
  unfold MachineState.along at halong
  unfold Backtracer.sourcesBefore
  cases hlabel : e.label with
  | instruction i =>
    simp only [hlabel] at halong ⊢
    cases hexecute : s₀.execute I i with
    | error f => simp [hexecute] at halong
    | ok v =>
      obtain rfl : v = u := by simpa [hexecute] using halong
      have hpass : ¬ (i.isInvoke && (tracer I g options c extra).explained r.node steps) = true := by
        intro hboth
        rw [Bool.and_eq_true] at hboth
        rw [hexplained (by rw [hlabel]; exact hboth.1)] at hboth
        simp at hboth
      rw [if_neg hpass]
      rcases hu.before h.conservative h.monotone (h.regular.instruction hedge hlabel)
        ((tracer I g options c extra).reaches e.source l) hexecute hbelow with
        hq | ⟨⟨dispatch, target, hop, hgen⟩, hslot⟩
      · exact .inl hq
      · refine .inr ⟨i, dispatch, target, r, hlabel, hop, ?_, hgen, hslot⟩
        rw [hsource]
        exact firstAt?_of_mem hcomplete hr
  | handler =>
    obtain rfl : s₀.catchException I = u := by simpa [hlabel] using halong
    exact .inl ⟨l, by simp, hbelow.holds (holds_catchException h.caught hu)⟩
  | call c => simp [hlabel] at halong

/-- A value that a callee returns is traced into the callee. -/
theorem Traceable.calleeStep_entered (h : Traceable I g options c) {k' y u : MachineState (Powerset α)}
    {b' : Block (MachineState (Powerset α))} (hcalls : t.calls = [])
    (hreduce : r.reduce d.1.target d.2 = .ok k') (hb' : c.get? d.2.target k' p = some b')
    (hy : y ∈ b'.reached.all.toList) (hexit : g.returnExit? d.2.target = some y.node)
    (hexpand : r.expand y d.2 = .ok u) (hle : Domain.le (relocate s.node u) s = true)
    (hinside : Backtracer.outsideResult d.2.target t.site.place = false) (hx : y.Holds t.site.place x)
    (extra : ExtraReach) :
    ∃ v, ((tracer I g options c extra).calleeStep p t r s d.1 d.2).result = .ok (.entered v) ∧ Found c v x := by
  obtain ⟨id, hfind, _, _, hreached⟩ := BlockCache.find?_of_get? hb'
  have hfirst : (c.reachedOf id).firstAt? y.node = some y := by
    rw [hreached]
    exact firstAt?_of_mem (h.complete _ _ _ _ hb') hy
  refine ⟨⟨⟨t.site.place, y.node⟩, id, [⟨d.2.target, t.block, r⟩]⟩, ?_, y, hfirst, hx⟩
  rw [Backtracer.result_calleeStep (by simp [hcalls]) hreduce hfind, hinside, hcalls]
  simp only [Bool.false_eq_true, if_false]
  have hexit' : (tracer I g options c extra).graph.returnExit? d.2.target = some y.node := hexit
  have hfirst' : ((tracer I g options c extra).cache.reachedOf id).firstAt? y.node = some y := hfirst
  have hexpand' : (tracer I g options c extra).expand r y d.1.target d.2 = .ok u := hexpand
  have hle' : Domain.le (relocate (location s) u) s = true := hle
  simp only [hexit', hfirst', hexpand', above_of_holds extra hx, Except.map, hle', if_true]
  rfl

omit [Std.LawfulEqOrd α] [DecidableEq P] in
/-- Unless some callee is entered, an invocation is not passed over. -/
theorem explained_of_unaffected {steps : List (CalleeStep (MachineState (Powerset α)))} {n : NodeId}
    (h : ∀ step ∈ steps, step = .unaffected) : (tracer I g options c extra).explained n steps = false := by
  have hnone : steps.filterMap CalleeStep.entered? = [] := by
    refine List.filterMap_eq_nil_iff.2 fun step hstep => ?_
    rw [h step hstep]
    rfl
  simp [Backtracer.explained, hnone]

omit [Std.LawfulEqOrd α] [DecidableEq P] in
theorem explained_of_apart {steps : List (CalleeStep (MachineState (Powerset α)))}
    (hapart : (I.joining g options : Interprocedural _ P).apart r.node = true)
    (hsteps : steps = [] ∨ steps.length = (g.knownCalls r.node).length) :
    (tracer I g options c extra).explained r.node steps = false := by
  rcases Bool.or_eq_true_iff.1 hapart with hempty | hunknown
  · have hnone : g.knownCalls r.node = [] := List.isEmpty_iff.1 hempty
    have hnil : steps = [] := by
      rcases hsteps with hsteps | hsteps
      · exact hsteps
      · rw [hnone] at hsteps
        exact List.length_eq_zero_iff.1 hsteps
    exact explained_of_unaffected (by simp [hnil])
  · have hunknown' : (tracer I g options c extra).graph.callsUnknown r.node = true := hunknown
    simp [Backtracer.explained, hunknown']

omit [Std.LawfulEqOrd α] in
/-- What an invocation leaves in place was there before it. -/
theorem Traceable.found_before (h : Traceable I g options c) {i : Instruction} {l q : MemoryLocation}
    {steps : List (CalleeStep (MachineState (Powerset α)))} (hedge : e ∈ g.edges)
    (hlabel : e.label = .instruction i)
    (hexplained : (tracer I g options c extra).explained n steps = false)
    (horigin : i.origin l = .kept q) :
    q ∈ (tracer I g options c extra).sourcesBefore e ((tracer I g options c extra).explained n steps) l := by
  unfold Backtracer.sourcesBefore
  rw [hexplained]
  simp only [hlabel, Bool.and_false, Bool.false_eq_true, if_false]
  refine Instruction.mem_sources (h.regular.instruction hedge hlabel) _ l ?_
  simp [horigin, Instruction.Origin.places]

/-- What a callee has generated at its exit lies below the exit of its block, and expanding that one leads
below the state at the return site. -/
theorem Traceable.returns (h : Traceable I g options c) {k' y : MachineState (Powerset α)}
    (hb : c.get? m k p = some b) (hs : b.reached.firstAt? n = some s) (hr : r ∈ b.reached.all.toList)
    (he : e ∈ g.leavingIntraprocedural r.node) (htarget : e.target = n)
    (hinvoke : e.label.isInvoke = true) (hd : d ∈ g.knownCalls r.node) (hbelow : s₀.Below r)
    (hreduce : s₀.reduce d.1.target d.2 = .ok k')
    (hy : (I.joining g options).Generated False p d.2.target k' y)
    (hexit : g.returnExit? d.2.target = some y.node) :
    ∃ k₂ b₂ y₂ u, r.reduce d.1.target d.2 = .ok k₂ ∧ c.get? d.2.target k₂ p = some b₂ ∧
      y₂ ∈ b₂.reached.all.toList ∧ y.Below y₂ ∧ r.expand y₂ d.2 = .ok u ∧
      Domain.le (relocate s.node u) s = true := by
  obtain ⟨k₂, b₂, hreduce', hb₂, hexits⟩ := h.called hb hr he hinvoke hd
  obtain ⟨y₂, hy₂, hbelow₂⟩ := dominated h.monotone h.balanced h.complete hy hb₂
    (hbelow.reduce hreduce hreduce')
  have hexit₂ : y₂ ∈ b₂.exits :=
    (h.complete _ _ _ _ hb₂).mem_exits.2 ⟨hy₂, hexit.trans (congrArg some hbelow₂.node)⟩
  obtain ⟨u, hexpand, r', hr', hle⟩ := hexits y₂ hexit₂
  refine ⟨k₂, b₂, y₂, u, hreduce', hb₂, hy₂, hbelow₂, hexpand, ?_⟩
  -- the state that covers the return is the only one at the return site
  have hcomplete := h.complete _ _ _ _ hb
  obtain ⟨hmem, hnode⟩ := LocatedStates.mem_of_firstAt? hcomplete.indexed hs
  have hnode' : e.target = r'.node := (le_iff.1 hle).1
  obtain rfl := hcomplete.single unifying_join r' hr' s hmem (hnode'.symm.trans (htarget.trans hnode.symm))
  rw [← hnode']
  exact hle

/-- A label at the exit of a callee is found there. -/
theorem Traceable.found_exit (h : Traceable I g options c) {k' y : MachineState (Powerset α)}
    {steps : List (CalleeStep (MachineState (Powerset α)))} (hb : c.get? m k p = some b)
    (hs : b.reached.firstAt? t.site.node = some s) (hr : r ∈ b.reached.all.toList)
    (he : e ∈ g.leavingIntraprocedural r.node) (htarget : e.target = t.site.node)
    (hinvoke : e.label.isInvoke = true) (hd : d ∈ g.knownCalls r.node) (hbelow : s₀.Below r)
    (hreduce : s₀.reduce d.1.target d.2 = .ok k')
    (hy : (I.joining g options).Generated False p d.2.target k' y)
    (hexit : g.returnExit? d.2.target = some y.node) (hcalls : t.calls = [])
    (hsteps : CalleesTraced (tracer I g options c extra) p t r s steps)
    (hvar : ∀ j, t.site.place ≠ .var j) (hx : y.Holds t.site.place x)
    (hinside : Backtracer.outsideResult d.2.target t.site.place = false) :
    ∃ v ∈ steps.filterMap CalleeStep.entered?, Found c v x := by
  obtain ⟨k₂, b₂, y₂, u₂, hreduce₂, hb₂, hy₂, hbelow₂, hexpand₂, hle⟩ :=
    h.returns hb hs hr he htarget hinvoke hd hbelow hreduce hy hexit
  obtain ⟨v, hv, hfound⟩ := h.calleeStep_entered hcalls hreduce₂ hb₂ hy₂
    (hexit.trans (congrArg some hbelow₂.node)) hexpand₂ hle hinside (hbelow₂.holds hx) extra
  obtain ⟨_, j, hj⟩ | ⟨_, hforall⟩ := hsteps
  · exact absurd hj (hvar j)
  · obtain ⟨step, hstep, hresult⟩ := exists_of_forall₂ hforall hd
    obtain rfl := Except.ok.inj (hv.symm.trans hresult)
    exact ⟨v, List.mem_filterMap.2 ⟨_, hstep, rfl⟩, hfound⟩

omit [Std.LawfulEqOrd α] in
/-- All targets of an invocation take and return as many slots as the invocation itself. -/
theorem Traceable.counts (h : Traceable I g options c) {i : Instruction}
    (he : e ∈ g.leavingIntraprocedural r.node) (hlabel : e.label = .instruction i)
    (hinvoke : i.isInvoke = true) (hd : d ∈ g.knownCalls r.node) :
    i.pops = d.2.target.parameterSlots ∧ i.pushes = d.2.target.descriptor.resultSlots := by
  obtain ⟨hcall, hcaller, hcalled, _⟩ := FlowGraph.mem_knownCalls.1 hd
  exact (h.fit d.1 hcall d.2 (by simp [hcalled, Label.call?])).2 e (hcaller ▸ he) i
    (by simp [hlabel, Label.instruction?]) hinvoke

omit [Std.LawfulEqOrd α] in
/-- A slot outside of the results of all callees is not traced into any of them. -/
theorem Traceable.unaffected (h : Traceable I g options c)
    {steps : List (CalleeStep (MachineState (Powerset α)))} (hb : c.get? m k p = some b)
    (hr : r ∈ b.reached.all.toList) (hcalls : t.calls = [])
    (hsteps : CalleesTraced (tracer I g options c extra) p t r s steps)
    (hvar : ∀ j, t.site.place ≠ .var j)
    (houtside : ∀ d ∈ g.knownCalls r.node, Backtracer.outsideResult d.2.target t.site.place = true) :
    ∀ step ∈ steps, step = .unaffected := by
  obtain ⟨_, j, hj⟩ | ⟨_, hforall⟩ := hsteps
  · exact absurd hj (hvar j)
  · intro step hstep
    obtain ⟨d, hd, hresult⟩ := exists_of_forall₂_right hforall hstep
    obtain ⟨step', hresult', hunaffected⟩ := h.calleeStep_ok (s := s) hb hr hd hcalls extra
    rw [Except.ok.inj (hresult.symm.trans hresult'), hunaffected (houtside d hd)]

/-- A label that comes back from a callee is found at the exit of the callee, and any other one before the
invocation. -/
theorem Traceable.found_call (h : Traceable I g options c) {k' y u : MachineState (Powerset α)}
    {steps : List (CalleeStep (MachineState (Powerset α)))} (hb : c.get? m k p = some b)
    (hs : b.reached.firstAt? t.site.node = some s) (hr : r ∈ b.reached.all.toList)
    (he : e ∈ g.leavingIntraprocedural r.node) (htarget : e.target = t.site.node)
    (hinvoke : e.label.isInvoke = true) (hd : d ∈ g.knownCalls r.node) (hbelow : s₀.Below r)
    (hreduce : s₀.reduce d.1.target d.2 = .ok k')
    (hy : (I.joining g options).Generated False p d.2.target k' y)
    (hexit : g.returnExit? d.2.target = some y.node) (hexpand : s₀.expand y d.2 = .ok u)
    (hu : u.Holds t.site.place x) (hcalls : t.calls = [])
    (hsteps : CalleesTraced (tracer I g options c extra) p t r s steps) :
    (∃ v ∈ steps.filterMap CalleeStep.entered?, Found c v x) ∨
      ∃ q ∈ (tracer I g options c extra).sourcesBefore e ((tracer I g options c extra).explained r.node steps)
        t.site.place, r.Holds q x := by
  obtain ⟨i, dispatch, callee, hlabel, hoperation⟩ := Label.instruction_of_isInvoke hinvoke
  obtain ⟨hedge, hsource, _⟩ := FlowGraph.mem_leavingIntraprocedural.1 he
  have hcounts : ∀ d ∈ g.knownCalls r.node,
      i.pops = d.2.target.parameterSlots ∧ i.pushes = d.2.target.descriptor.resultSlots :=
    fun d hd => h.counts he hlabel (by simp [Instruction.isInvoke, hoperation]) hd
  obtain ⟨hpops, hpushes⟩ := hcounts d hd
  have hfound := h.found_exit (x := x) hb hs hr he htarget hinvoke hd hbelow hreduce hy hexit hcalls hsteps
  obtain ⟨v, hv, hx⟩ := hu
  rw [valueAt?_expand hexpand] at hv
  cases hplace : t.site.place with
  | var j =>
    rw [hplace] at hv
    obtain ⟨rfl, _⟩ | ⟨hvar, _⟩ := hsteps
    · exact .inr ⟨.var j, h.found_before hedge hlabel (explained_of_unaffected (by simp))
        (by simp [Instruction.origin, Instruction.varOrigin, hoperation]), hbelow.holds ⟨v, hv, hx⟩⟩
    · exact absurd hplace (hvar j)
  | stack j =>
    rw [hplace] at hv
    by_cases hj : j < d.2.target.descriptor.resultSlots
    · simp only [hj, if_true] at hv
      refine .inl (hfound (by simp [hplace]) ?_ ?_)
      · rw [hplace]
        exact ⟨v, hv, hx⟩
      · simp [hplace, Backtracer.outsideResult, hj]
    · simp only [hj, if_false] at hv
      have hunaffected : ∀ step ∈ steps, step = .unaffected := by
        refine h.unaffected hb hr hcalls hsteps (by simp [hplace]) fun d' hd' => ?_
        rw [hplace, Backtracer.outsideResult, ← (hcounts d' hd').2, hpushes]
        simpa using hj
      rw [← hpops, ← hpushes] at hv
      refine .inr ⟨_, h.found_before hedge hlabel (explained_of_unaffected hunaffected) ?_,
        hbelow.holds ⟨v, hv, hx⟩⟩
      simp [Instruction.origin, Instruction.stackOrigin, hoperation, hpushes, hj]
  | static f =>
    rw [hplace] at hv
    refine .inl (hfound (by simp [hplace]) ?_ ?_)
    · rw [hplace]
      exact ⟨v, hv, hx⟩
    · simp [hplace, Backtracer.outsideResult]
  | heap f =>
    rw [hplace] at hv
    cases hv

/-- All states that are generated at one node have stacks of the same height. -/
theorem Traceable.height (h : Traceable I g options c) (hb : c.get? m k p = some b)
    (hs : (I.joining g options).Generated False p m k s) (hr : (I.joining g options).Generated False p m k r)
    (hnode : r.node = s.node) : s.frame.stack.length = r.frame.stack.length := by
  obtain ⟨s', hs', hbelow⟩ := dominated h.monotone h.balanced h.complete hs hb (.refl k)
  obtain ⟨r', hr', hbelow'⟩ := dominated h.monotone h.balanced h.complete hr hb (.refl k)
  have hsame : location s' = location r' := hbelow.node.symm.trans (hnode.symm.trans hbelow'.node)
  obtain rfl := (h.complete _ _ _ _ hb).single unifying_join s' hs' r' hr' hsame
  rw [hbelow.height, hbelow'.height]

/-- The steps along some edge find the label, unless the edge is an invocation that generates it. -/
theorem Traceable.found (h : Traceable I g options c) (hb : c.get? m k p = some b)
    (hblock : c.reachedOf t.block = b.reached) (hs : b.reached.firstAt? t.site.node = some s)
    (hk : t.site.node ≠ k.node) (hcalls : t.calls = []) (hx : s.Holds t.site.place x) (extra : ExtraReach) :
    ∃ e ∈ g.enteringIntraprocedural t.site.node,
      (∃ us, ((tracer I g options c extra).edgeSteps p t e).result = .ok us ∧ ∃ u ∈ us, Found c u x) ∨
        (I.joining g options : Interprocedural _ P).apart e.source = true ∧ InvokedAt I b e t.site.place x := by
  have hcomplete := h.complete m k p b hb
  obtain ⟨hmem, hnode⟩ := LocatedStates.mem_of_firstAt? hcomplete.indexed hs
  obtain ⟨s₀, e, u, hs₀, he, htarget, hu, hxu⟩ := contributed (Q := (·.Holds t.site.place x))
    (fun _ _ hQ => hQ) (fun _ _ hheight hQ => holds_join hheight hQ)
    (fun _ _ hs hr hnode => h.height hb hs hr hnode) (hcomplete.generated s hmem)
    (fun heq => hk (hnode.symm.trans heq)) hx
  obtain ⟨r, hr, hbelow⟩ := dominated h.monotone h.balanced h.complete hs₀ hb (.refl k)
  rw [hbelow.node] at he
  obtain ⟨hedge, hsource, hintra⟩ := FlowGraph.mem_leavingIntraprocedural.1 he
  have htarget' : e.target = t.site.node := htarget.trans hnode
  obtain ⟨steps, hsteps, hform⟩ := h.calleeSteps_ok hb hblock hs hr hcalls extra
  have hfirst : ((tracer I g options c extra).cache.reachedOf t.block).firstAt? e.source = some r := by
    rw [hsource]
    exact hblock ▸ firstAt?_of_mem hcomplete hr
  rw [← hsource] at hsteps
  have hresult := h.result_edgeSteps hedge hfirst hsteps
  rw [hcalls, hsource] at hresult
  have hplace : (∃ q ∈ (tracer I g options c extra).sourcesBefore e
      ((tracer I g options c extra).explained r.node steps) t.site.place, r.Holds q x) →
      ∃ us, ((tracer I g options c extra).edgeSteps p t e).result = .ok us ∧ ∃ u ∈ us, Found c u x := by
    rintro ⟨q, hq, hxq⟩
    have habove : (tracer I g options c extra).above r q = true := above_of_holds extra hxq
    refine ⟨_, hresult, _, List.mem_append_right _ (Backtracer.mem_statesFor.2 ⟨q, hq, habove, rfl⟩), r, ?_, hxq⟩
    rw [hblock]
    exact firstAt?_of_mem hcomplete hr
  refine ⟨e, FlowGraph.mem_enteringIntraprocedural.2 ⟨hedge, htarget', hintra⟩, ?_⟩
  cases hu with
  | along hapart halong hul =>
    obtain ⟨u', rfl⟩ := along_eq_singleton hintra halong
    obtain rfl := List.mem_singleton.1 hul
    have hapart' : e.label.isInvoke = true → (I.joining g options : Interprocedural _ P).apart r.node = true :=
      fun hinvoke => hbelow.node ▸ hapart hinvoke
    have hlength : steps = [] ∨ steps.length = (g.knownCalls r.node).length :=
      hform.imp And.left fun hform => hform.2.length_eq.symm
    rcases h.found_along hcomplete hr he hbelow (fun hinvoke => explained_of_apart (hapart' hinvoke) hlength)
      halong hxu with hq | hinvoked
    · exact .inl (hplace hq)
    · have hinvoke : e.label.isInvoke = true := by
        obtain ⟨i, dispatch, target, _, hlabel, hoperation, _⟩ := hinvoked
        simp [hlabel, Label.isInvoke, Instruction.isInvoke, hoperation]
      exact .inr ⟨hsource ▸ hapart' hinvoke, hinvoked⟩
  | call hinvoke hd hreduce hy hexit hexpand =>
    rcases h.found_call hb hs hr he htarget' hinvoke (hbelow.node ▸ hd) hbelow hreduce hy hexit hexpand hxu hcalls
      hform with ⟨v, hv, hfound⟩ | hq
    · exact .inl ⟨_, hresult, v, List.mem_append_left _ hv, hfound⟩
    · exact .inl (hplace hq)

end MachineState

namespace Interpreter

open MachineState

/-- A backward step from a place that holds a label succeeds and finds the label again: at a place before
one of the edges that lead there, or at the exit of a callee. Otherwise one of these edges is an invocation
that was not followed into all its targets and that generates the label. -/
theorem backtrace_finds_label {α P : Type} [Ord α] [Std.TransOrd α] [Std.LawfulEqOrd α] [DecidableEq α]
    [DecidableEq P] {I : Interpreter (Powerset α)} (hmonotone : I.Monotone) (hconservative : I.Conservative)
    (hcaught : I.caught = .empty) {g : FlowGraph} (hbuilt : g.Built) (hconfined : g.Confined)
    (hacyclic : g.Acyclic) (hfit : g.CallsFit) (hregular : g.Regular) {options : Options}
    (hdepth : options.maxDepth = none) {σ : Session (MachineState (Powerset α)) P}
    (hσ : (I.joining g options).Visited AbortSignal.Quiet σ) (hbalanced : Balanced (I.joining g options) σ.cache)
    {m : Method} {k : MachineState (Powerset α)} {p : P} {b : Block (MachineState (Powerset α))} {id : BlockId}
    (hb : σ.cache.get? m k p = some b) (hid : σ.cache.find? m k p = some id) {n : NodeId}
    (hn : g.isEntryNode n = false) {s : MachineState (Powerset α)} (hs : b.reached.firstAt? n = some s)
    {l : MemoryLocation} {x : α} (hx : s.Holds l x) (extra : ExtraReach) :
    ∃ ts, ((tracer I g options σ.cache extra).backtrace p ⟨⟨l, n⟩, id, []⟩).result = .ok ts ∧
      ((∃ u ∈ ts, Found σ.cache u x) ∨ ∃ e ∈ g.enteringIntraprocedural n,
        (g.knownCalls e.source = [] ∨ g.callsUnknown e.source = true) ∧ InvokedAt I b e l x) := by
  have hmodular := I.modular (P := P) (.inr rfl) hbuilt hconfined hacyclic hdepth
  have hready : Interprocedural.Ready _ False [] σ :=
    hσ.ready (covering (.inr rfl)) (.inr hmodular) fun _ hquiet => .inr hquiet
  have htraceable : Traceable I g options σ.cache :=
    ⟨hmonotone, hconservative, hcaught, hregular, hfit, hbalanced, hready.blocks⟩
  have hblock : σ.cache.reachedOf id = b.reached := by
    obtain ⟨id', hid', _, _, hreached⟩ := BlockCache.find?_of_get? hb
    rw [Option.some.inj (hid.symm.trans hid'), hreached]
  have hk : n ≠ k.node := by
    rintro rfl
    rw [isEntryNode_of_entry hbuilt (hready.blocks m k p b hb).key] at hn
    cases hn
  have hheap : l.isHeap = false := by
    cases l with
    | heap f => exact absurd hx not_holds_heap
    | _ => rfl
  obtain ⟨ts, hts, hedges⟩ := Backtracer.result_backtrace (B := tracer I g options σ.cache extra)
    (t := ⟨⟨l, n⟩, id, []⟩) hheap hn fun e he =>
    htraceable.edgeSteps_ok hb hblock hs rfl (FlowGraph.mem_enteringIntraprocedural.1 he).1 extra
  refine ⟨ts, hts, ?_⟩
  obtain ⟨e, he, ⟨us, hus, u, hu, hfound⟩ | ⟨hapart, hinvoked⟩⟩ :=
    htraceable.found (t := ⟨⟨l, n⟩, id, []⟩) hb hblock hs hk rfl hx extra
  · exact .inl ⟨u, hedges e he us hus u hu, hfound⟩
  · refine .inr ⟨e, he, ?_, hinvoked⟩
    exact (Bool.or_eq_true_iff.1 hapart).imp_left List.isEmpty_iff.1

/-! ### A label that is passed through a callee -/

def collecting : Interpreter (Powerset Nat) where
  result _ operands := operands.foldr Powerset.union .empty
  invoke _ arguments := arguments.foldr Powerset.union .empty
  caught := .empty

theorem mem_foldr_union {l : List (Powerset Nat)} {x : Nat} :
    x ∈ l.foldr Powerset.union .empty ↔ ∃ v ∈ l, x ∈ v := by
  induction l with
  | nil => simp
  | cons v l ih => simp [Powerset.mem_union, ih]

theorem collecting_monotone : collecting.Monotone := by
  have hunion : ∀ {l r : List (Powerset Nat)}, List.Forall₂ (fun a b => Domain.le a b = true) l r →
      Domain.le (l.foldr Powerset.union .empty) (r.foldr Powerset.union .empty) = true := by
    intro l r h
    refine Powerset.subset_iff.2 fun x hx => ?_
    obtain ⟨v, hv, hxv⟩ := mem_foldr_union.1 hx
    obtain ⟨w, hw, hle⟩ := exists_of_forall₂ h hv
    exact mem_foldr_union.2 ⟨w, hw, Powerset.subset_iff.1 hle x hxv⟩
  exact ⟨fun _ _ _ h => hunion h, fun _ _ _ h => hunion h⟩

theorem collecting_conservative : collecting.Conservative := fun _ _ _ hx => mem_foldr_union.1 hx

/-- The creator passes a static field to the identity. -/
def forwardGraph : FlowGraph :=
  (FlowGraph.assemble [.method creator, .method identity,
    .instruction identity (some 0) (some 1) (.load 0 false),
    .instruction identity (some 1) (some (-1)) (.ret 1),
    .instruction creator (some 0) (some 1) (.getStatic "A" false),
    .invoke creator (some 1) (some 2) .static identity,
    .instruction creator (some 2) (some (-1)) (.ret 0)]).graph

/-- A state at this node whose static field holds the label 7. -/
def labelledEntry (n : NodeId) : MachineState (Powerset Nat) :=
  ⟨n, .empty, .ofList [("A", .singleton 7)]⟩

def forwardSession : Session (MachineState (Powerset Nat)) Unit :=
  ((collecting.joining forwardGraph .initial).analyze 10 creator (labelledEntry 3) ()).final (.start .never)

theorem forward_balanced : Balanced (collecting.joining forwardGraph .initial) forwardSession.cache := by
  refine balanced_of_toList ?_ ?_ <;> decide +kernel

/-- The result of the call is traced into the identity. -/
theorem backtrace_finds_label_forward :
    ∃ b id s ts, forwardSession.cache.get? creator (labelledEntry 3) () = some b ∧
      forwardSession.cache.find? creator (labelledEntry 3) () = some id ∧
      b.reached.firstAt? 9 = some s ∧ s.Holds (.stack 0) 7 ∧
      ((tracer collecting forwardGraph .initial forwardSession.cache fun _ _ => false).backtrace ()
        ⟨⟨.stack 0, 9⟩, id, []⟩).result = .ok ts ∧ ∃ u ∈ ts, Found forwardSession.cache u 7 := by
  have hstate : (((forwardSession.cache.get? creator (labelledEntry 3) ()).bind
      (·.reached.firstAt? 9)).bind (valueAt? · (.stack 0))) = some (.singleton 7) := by
    decide +kernel
  obtain ⟨s, hs, hv⟩ := Option.bind_eq_some_iff.1 hstate
  obtain ⟨b, hb, hs⟩ := Option.bind_eq_some_iff.1 hs
  obtain ⟨id, hid, _⟩ := BlockCache.find?_of_get? hb
  have hx : s.Holds (.stack 0) 7 := ⟨_, hv, List.mem_singleton.2 rfl⟩
  have hvisited : (collecting.joining forwardGraph .initial).Visited AbortSignal.Quiet forwardSession :=
    .analyze _ _ _ _ (.start trivial)
  have hconfined : forwardGraph.Confined := by
    unfold FlowGraph.Confined
    decide +kernel
  have hacyclic : forwardGraph.Acyclic := by
    refine FlowGraph.acyclic_of_rank (fun m => if m = creator then 1 else 0) ?_
    decide +kernel
  have hfit : forwardGraph.CallsFit := by
    unfold FlowGraph.CallsFit
    decide +kernel
  have hregular : forwardGraph.Regular := by
    unfold FlowGraph.Regular
    decide +kernel
  obtain ⟨ts, hts, hfound | ⟨e, he, happart, _⟩⟩ := backtrace_finds_label collecting_monotone
    collecting_conservative rfl (FlowGraph.built_assemble _) hconfined hacyclic hfit hregular rfl hvisited
    forward_balanced hb hid (n := 9) (by decide +kernel) hs hx fun _ _ => false
  · exact ⟨b, id, s, ts, hb, hid, hs, hx, hts, hfound⟩
  · have hcalled : ∀ e ∈ forwardGraph.enteringIntraprocedural 9,
        ¬ (forwardGraph.knownCalls e.source = [] ∨ forwardGraph.callsUnknown e.source = true) := by
      decide +kernel
    exact absurd happart (hcalled e he)

/-! ### An instruction whose counts do not fit -/

/-- A store that pops three slots and sets three variables. -/
def scatterGraph : FlowGraph :=
  (FlowGraph.assemble [.method creator,
    .instruction creator (some 0) (some 1) (.getStatic "A" false),
    .instruction creator (some 1) (some 2) (.getStatic "A" false),
    .instruction creator (some 2) (some 3) (.getStatic "A" false),
    .instruction creator (some 3) (some 4) ⟨.store 0, 3, 0⟩,
    .instruction creator (some 4) (some (-1)) (.ret 0)]).graph

def scatterSession : Session (MachineState (Powerset Nat)) Unit :=
  ((collecting.joining scatterGraph .initial).analyze 10 creator (labelledEntry 3) ()).final (.start .never)

/-- The second variable holds the label after the store, but no place is found where it was before. -/
theorem backtrace_loses_label_scatter :
    collecting.Monotone ∧ collecting.Conservative ∧ collecting.caught = .empty ∧ scatterGraph.Built ∧
      scatterGraph.Confined ∧ scatterGraph.Acyclic ∧ scatterGraph.CallsFit ∧
      (collecting.joining scatterGraph .initial).Visited AbortSignal.Quiet scatterSession ∧
      Balanced (collecting.joining scatterGraph .initial) scatterSession.cache ∧
      scatterGraph.isEntryNode 7 = false ∧
      ∃ b id s, scatterSession.cache.get? creator (labelledEntry 3) () = some b ∧
        scatterSession.cache.find? creator (labelledEntry 3) () = some id ∧
        b.reached.firstAt? 7 = some s ∧ s.Holds (.var 1) 7 ∧
        ((tracer collecting scatterGraph .initial scatterSession.cache fun _ _ => false).backtrace ()
          ⟨⟨.var 1, 7⟩, id, []⟩).result.toOption = some [] ∧
        ∀ e ∈ scatterGraph.enteringIntraprocedural 7, e.label.isInvoke = false := by
  have hstate : (((scatterSession.cache.get? creator (labelledEntry 3) ()).bind
      (·.reached.firstAt? 7)).bind (valueAt? · (.var 1))) = some (.singleton 7) := by
    decide +kernel
  have htrace : ((scatterSession.cache.find? creator (labelledEntry 3) ()).bind fun id =>
      ((tracer collecting scatterGraph .initial scatterSession.cache fun _ _ => false).backtrace ()
        ⟨⟨.var 1, 7⟩, id, []⟩).result.toOption) = some [] := by
    decide +kernel
  obtain ⟨s, hs, hv⟩ := Option.bind_eq_some_iff.1 hstate
  obtain ⟨b, hb, hs⟩ := Option.bind_eq_some_iff.1 hs
  obtain ⟨id, hid, hnone⟩ := Option.bind_eq_some_iff.1 htrace
  refine ⟨collecting_monotone, collecting_conservative, rfl, FlowGraph.built_assemble _, ?_, ?_, ?_,
    .analyze _ _ _ _ (.start trivial), ?_, by decide +kernel,
    b, id, s, hb, hid, hs, ⟨_, hv, List.mem_singleton.2 rfl⟩, hnone, by decide +kernel⟩
  · unfold FlowGraph.Confined
    decide +kernel
  · exact FlowGraph.acyclic_of_rank (fun _ => 0) (by decide +kernel)
  · unfold FlowGraph.CallsFit
    decide +kernel
  · refine balanced_of_toList ?_ ?_ <;> decide +kernel

end Interpreter

end BytecodeFlow
