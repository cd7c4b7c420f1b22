import BytecodeFlow.Proofs.Backsteps

/-! # Backward steps as a relation

The ways in which one traced state leads to another: along an edge into its node, from a return site into a
callee, and from a procedure's entry to the remembered caller or to a cached one. A backward step that
succeeds returns exactly the states that are related to the given one.
-/
namespace BytecodeFlow

/-- What a list of computations returns, put together, is what one of them returns. -/
theorem Logged.mem_flatten {α β : Type} {f : α → Logged (List β)} {l : List α} {bs : List β}
    (h : (do return (← l.mapM f).flatten : Logged (List β)).result = .ok bs) {b : β} :
    b ∈ bs ↔ ∃ a ∈ l, ∃ part, (f a).result = .ok part ∧ b ∈ part := by
  rw [Logged.result_bind, bind_eq_ok, Logged.result_mapM] at h
  obtain ⟨parts, hparts, h⟩ := h
  rw [mapM_eq_ok] at hparts
  cases h
  rw [List.mem_flatten]
  constructor
  · rintro ⟨part, hpart, hb⟩
    obtain ⟨a, ha, hfa⟩ := exists_of_forall₂_right hparts hpart
    exact ⟨a, ha, part, hfa, hb⟩
  · rintro ⟨a, ha, part, hfa, hb⟩
    obtain ⟨part', hpart, hfa'⟩ := exists_of_forall₂ hparts ha
    obtain rfl : part = part' := Except.ok.inj (hfa.symm.trans hfa')
    exact ⟨part, hpart, hb⟩

theorem Logged.exists_ok_of_flatten {α β : Type} {f : α → Logged (List β)} {l : List α} {bs : List β}
    (h : (do return (← l.mapM f).flatten : Logged (List β)).result = .ok bs) {a : α} (ha : a ∈ l) :
    ∃ part, (f a).result = .ok part := by
  rw [Logged.result_bind, bind_eq_ok, Logged.result_mapM] at h
  obtain ⟨parts, hparts, _⟩ := h
  obtain ⟨part, _, hpart⟩ := exists_of_forall₂ (mapM_eq_ok.1 hparts) ha
  exact ⟨part, hpart⟩

namespace Backtracer

variable {S P V : Type} [DecidableEq S] [DecidableEq P] [Located S] [Observable S V] [Domain S] [Domain V]
  {B : Backtracer S P V} {p : P} {t u : TracedState S} {ts : List (TracedState S)}

/-- A callee explains the value at the return site of a call: its block for the reduced state of the caller
returns a value there, and the expanded exit is below the state at the return site. -/
structure Enters (B : Backtracer S P V) (p : P) (t : TracedState S) (caller returnSite : S) (d : Edge × Call)
    (id : BlockId) (exit : NodeId) : Prop where
  fresh : ∀ c ∈ t.calls, c.callee ≠ d.2.target
  found : ∃ entry, B.reduce caller d.1.target d.2 = .ok entry ∧ B.cache.find? d.2.target entry p = some id
  inside : outsideResult d.2.target t.site.place = false
  returns : B.graph.returnExit? d.2.target = some exit
  explains : ∃ returned expanded, (B.cache.reachedOf id).firstAt? exit = some returned ∧
    B.above returned t.site.place = true ∧ B.expand caller returned d.1.target d.2 = .ok expanded ∧
    Domain.le (relocate (location returnSite) expanded) returnSite = true

/-- The second location is listed before the edge for the first one after it. -/
def Precedes (B : Backtracer S P V) (e : Edge) (explained : Bool) (l q : MemoryLocation) : Prop :=
  ∃ places, B.placesBefore e explained l = .ok places ∧ q ∈ places

inductive Step (B : Backtracer S P V) (p : P) (t : TracedState S) : TracedState S → Prop
  /-- Along an edge, to a location that the value may come from. -/
  | edge {e : Edge} {parent : S} {steps : List (CalleeStep S)} {l : MemoryLocation} :
    e ∈ B.graph.enteringIntraprocedural t.site.node →
    (B.cache.reachedOf t.block).firstAt? e.source = some parent →
    (B.calleeSteps p t e.source parent).result = .ok steps →
    B.Precedes e (B.explained e.source steps) t.site.place l → B.above parent l = true →
    Step B p t ⟨⟨l, location parent⟩, t.block, t.calls⟩
  /-- From a return site to the exit of a callee. -/
  | callee {e : Edge} {parent current : S} {d : Edge × Call} {id : BlockId} {exit : NodeId} :
    e ∈ B.graph.enteringIntraprocedural t.site.node →
    (B.cache.reachedOf t.block).firstAt? e.source = some parent →
    (B.cache.reachedOf t.block).firstAt? t.site.node = some current →
    (∀ j, t.site.place ≠ .var j) → d ∈ B.graph.knownCalls e.source → B.Enters p t parent current d id exit →
    Step B p t ⟨⟨t.site.place, exit⟩, id, ⟨d.2.target, t.block, parent⟩ :: t.calls⟩
  /-- From an entry to the remembered caller. -/
  | remembered {place : MemoryLocation} {c : CallRecord S} {rest : List (CallRecord S)} :
    B.graph.isEntryNode t.site.node = true → B.callerPlace? t = some place → t.calls = c :: rest →
    B.above c.state place = true → Step B p t ⟨⟨place, location c.state⟩, c.caller, rest⟩
  /-- From an entry to a cached caller whose state reduces to the state at the entry. -/
  | cached {place : MemoryLocation} {called caller : S} {d : Edge × Call} {b : BlockId × Block S} :
    B.graph.isEntryNode t.site.node = true → B.callerPlace? t = some place → t.calls = [] →
    (B.cache.reachedOf t.block).firstAt? t.site.node = some called →
    d ∈ B.graph.enteringCalls t.site.node → b ∈ B.cache.blocksOf d.2.caller →
    b.2.reached.firstAt? d.1.source = some caller → B.reduce caller t.site.node d.2 = .ok called →
    B.above caller place = true → Step B p t ⟨⟨place, location caller⟩, b.1, []⟩

/-! ### The parts of a step -/

theorem Enters.result_eq {caller returnSite : S} {d : Edge × Call} {id : BlockId} {exit : NodeId}
    (h : B.Enters p t caller returnSite d id exit) :
    (B.calleeStep p t caller returnSite d.1 d.2).result =
      .ok (.entered ⟨⟨t.site.place, exit⟩, id, ⟨d.2.target, t.block, caller⟩ :: t.calls⟩) := by
  obtain ⟨entry, hreduce, hfind⟩ := h.found
  obtain ⟨returned, expanded, hfirst, habove, hexpand, hle⟩ := h.explains
  have hfresh : t.calls.any (·.callee == d.2.target) = false := by
    rw [List.any_eq_false]
    intro c hc
    simpa using h.fresh c hc
  rw [result_calleeStep hfresh hreduce hfind]
  simp [h.inside, h.returns, hfirst, habove, hexpand, hle, Except.map]

theorem enters_of_result_eq {caller returnSite : S} {d : Edge × Call}
    (h : (B.calleeStep p t caller returnSite d.1 d.2).result = .ok (.entered u)) :
    ∃ id exit, B.Enters p t caller returnSite d id exit ∧
      u = ⟨⟨t.site.place, exit⟩, id, ⟨d.2.target, t.block, caller⟩ :: t.calls⟩ := by
  cases hfresh : t.calls.any (·.callee == d.2.target) with
  | true =>
    rw [result_calleeStep_recursive hfresh] at h
    cases h
  | false =>
    cases hreduce : B.reduce caller d.1.target d.2 with
    | error f =>
      unfold calleeStep at h
      simp [hfresh, hreduce, Except.bind] at h
    | ok entry =>
      cases hfind : B.cache.find? d.2.target entry p with
      | none =>
        rw [result_calleeStep_missing hfresh hreduce hfind] at h
        cases h
      | some id =>
        rw [result_calleeStep hfresh hreduce hfind] at h
        split at h
        · cases h
        · rename_i hinside
          split at h
          · cases h
          · rename_i exit hexit
            split at h
            · cases h
            · rename_i returned hreturned
              split at h
              · cases h
              · rename_i habove
                obtain ⟨expanded, hexpand, heq⟩ := map_eq_ok.1 h
                split at heq
                · rename_i hle
                  have hcallees : ∀ c ∈ t.calls, c.callee ≠ d.2.target := by
                    intro c hc
                    simpa using List.any_eq_false.1 hfresh c hc
                  refine ⟨id, exit, ⟨hcallees, ⟨entry, hreduce, hfind⟩, by simpa using hinside, hexit,
                    returned, expanded, hreturned, by simpa using habove, hexpand, hle⟩, ?_⟩
                  exact (CalleeStep.entered.inj heq).symm
                · cases heq

theorem mem_entered {parent : NodeId} {s : S} {steps : List (CalleeStep S)}
    (h : (B.calleeSteps p t parent s).result = .ok steps) :
    u ∈ steps.filterMap CalleeStep.entered? ↔
      ∃ current d id exit, (B.cache.reachedOf t.block).firstAt? t.site.node = some current ∧
        (∀ j, t.site.place ≠ .var j) ∧ d ∈ B.graph.knownCalls parent ∧ B.Enters p t s current d id exit ∧
        u = ⟨⟨t.site.place, exit⟩, id, ⟨d.2.target, t.block, s⟩ :: t.calls⟩ := by
  by_cases hvar : ∃ j, t.site.place = .var j
  · obtain ⟨j, hj⟩ := hvar
    obtain rfl : steps = [] := by
      rw [result_calleeSteps_var hj] at h
      exact (Except.ok.inj h).symm
    constructor
    · intro hu
      cases hu
    · rintro ⟨_, _, _, _, _, hvar, _⟩
      exact absurd hj (hvar j)
  · have hvar : ∀ j, t.site.place ≠ .var j := fun j hj => hvar ⟨j, hj⟩
    cases hcurrent : (B.cache.reachedOf t.block).firstAt? t.site.node with
    | none =>
      obtain rfl : steps = [] := by
        rw [result_calleeSteps_none hcurrent] at h
        exact (Except.ok.inj h).symm
      constructor
      · intro hu
        cases hu
      · rintro ⟨_, _, _, _, hsome, _⟩
        cases hsome
    | some current =>
      rw [result_calleeSteps parent hvar hcurrent, mapM_eq_ok] at h
      rw [List.mem_filterMap]
      constructor
      · rintro ⟨step, hstep, hu⟩
        obtain ⟨d, hd, hresult⟩ := exists_of_forall₂_right h hstep
        obtain rfl : step = .entered u := by
          cases step <;> simp_all [CalleeStep.entered?]
        obtain ⟨id, exit, henters, rfl⟩ := enters_of_result_eq hresult
        exact ⟨current, d, id, exit, rfl, hvar, hd, henters, rfl⟩
      · rintro ⟨current', d, id, exit, hcurrent', _, hd, henters, rfl⟩
        obtain rfl : current = current' := Option.some.inj hcurrent'
        obtain ⟨step, hstep, hresult⟩ := exists_of_forall₂ h hd
        obtain rfl := Except.ok.inj (hresult.symm.trans henters.result_eq)
        exact ⟨_, hstep, rfl⟩

theorem edgeSteps_eq_ok {e : Edge} (h : (B.edgeSteps p t e).result = .ok ts) :
    ((B.cache.reachedOf t.block).firstAt? e.source = none ∧ ts = []) ∨
      ∃ parent steps places, (B.cache.reachedOf t.block).firstAt? e.source = some parent ∧
        (B.calleeSteps p t e.source parent).result = .ok steps ∧
        B.placesBefore e (B.explained e.source steps) t.site.place = .ok places ∧
        ts = steps.filterMap CalleeStep.entered? ++ B.statesFor places parent t.block t.calls := by
  cases hparent : (B.cache.reachedOf t.block).firstAt? e.source with
  | none =>
    rw [result_edgeSteps_none hparent] at h
    exact .inl ⟨rfl, (Except.ok.inj h).symm⟩
  | some parent =>
    cases hsteps : (B.calleeSteps p t e.source parent).result with
    | error f =>
      unfold edgeSteps at h
      simp only [Logged.result_bind, result_stateAt, hparent, hsteps, Except.bind] at h
      cases h
    | ok steps =>
      rw [result_edgeSteps_some hparent hsteps] at h
      cases hplaces : B.placesBefore e (B.explained e.source steps) t.site.place with
      | error f => simp [hplaces, Except.map] at h
      | ok places =>
        rw [hplaces] at h
        exact .inr ⟨parent, steps, places, rfl, hsteps, hplaces, (Except.ok.inj h).symm⟩

theorem mem_edgeSteps {e : Edge} (he : e ∈ B.graph.enteringIntraprocedural t.site.node)
    (h : (B.edgeSteps p t e).result = .ok ts) (hu : u ∈ ts) : B.Step p t u := by
  rcases edgeSteps_eq_ok h with ⟨_, rfl⟩ | ⟨parent, steps, places, hparent, hsteps, hplaces, rfl⟩
  · cases hu
  · rcases List.mem_append.1 hu with hu | hu
    · obtain ⟨current, d, id, exit, hcurrent, hvar, hd, henters, rfl⟩ := (mem_entered hsteps).1 hu
      exact .callee he hparent hcurrent hvar hd henters
    · obtain ⟨l, hl, habove, rfl⟩ := mem_statesFor.1 hu
      exact .edge he hparent hsteps ⟨places, hplaces, hl⟩ habove

omit [DecidableEq P] [Domain S] in
theorem mem_callerStep {place : MemoryLocation} {called : S} {d : Edge × Call} {b : BlockId × Block S}
    (h : (B.callerStep place t called d.1 d.2 b).result = .ok ts) :
    u ∈ ts ↔ ∃ caller, b.2.reached.firstAt? d.1.source = some caller ∧
      B.reduce caller t.site.node d.2 = .ok called ∧ B.above caller place = true ∧
      u = ⟨⟨place, location caller⟩, b.1, []⟩ := by
  unfold callerStep at h
  cases hcaller : b.2.reached.firstAt? d.1.source with
  | none =>
    rw [hcaller] at h
    cases h
    simp
  | some caller =>
    rw [hcaller] at h
    simp only [Logged.result_bind, Logged.result_ofExcept, bind_eq_ok] at h
    obtain ⟨entry, hentry, h⟩ := h
    by_cases heq : entry = called
    · subst heq
      rw [if_pos rfl] at h
      cases h
      rw [mem_statesFor]
      simp [hentry]
    · rw [if_neg heq] at h
      cases h
      simp [hentry, heq]

omit [DecidableEq P] [Domain S] in
theorem mem_callerSteps {place : MemoryLocation} (h : (B.callerSteps place t).result = .ok ts) :
    u ∈ ts ↔ ∃ called d b caller, (B.cache.reachedOf t.block).firstAt? t.site.node = some called ∧
      d ∈ B.graph.enteringCalls t.site.node ∧ b ∈ B.cache.blocksOf d.2.caller ∧
      b.2.reached.firstAt? d.1.source = some caller ∧ B.reduce caller t.site.node d.2 = .ok called ∧
      B.above caller place = true ∧ u = ⟨⟨place, location caller⟩, b.1, []⟩ := by
  unfold callerSteps at h
  rw [Logged.result_bind, result_stateAt, bind_eq_ok] at h
  obtain ⟨called?, hcalled, h⟩ := h
  cases hcalled
  cases hcalled : (B.cache.reachedOf t.block).firstAt? t.site.node with
  | none =>
    rw [hcalled] at h
    cases h
    simp
  | some called =>
    rw [hcalled] at h
    rw [Logged.mem_flatten h]
    constructor
    · rintro ⟨d, hd, part, hpart, hu⟩
      obtain ⟨b, hb, step, hstep, hu⟩ := (Logged.mem_flatten hpart).1 hu
      obtain ⟨caller, hcaller, hreduce, habove, rfl⟩ := (mem_callerStep hstep).1 hu
      exact ⟨called, d, b, caller, rfl, hd, hb, hcaller, hreduce, habove, rfl⟩
    · rintro ⟨_, d, b, caller, hsome, hd, hb, hfound⟩
      cases hsome
      obtain ⟨part, hpart⟩ := Logged.exists_ok_of_flatten h hd
      obtain ⟨step, hstep⟩ := Logged.exists_ok_of_flatten hpart hb
      have hu : u ∈ step := (mem_callerStep hstep).2 ⟨caller, hfound⟩
      exact ⟨d, hd, part, hpart, (Logged.mem_flatten hpart).2 ⟨b, hb, step, hstep, hu⟩⟩

omit [DecidableEq P] [Domain S] in
theorem entrySteps_nil {place : MemoryLocation} (hentry : B.graph.isEntryNode t.site.node = true)
    (hplace : B.callerPlace? t = some place) (hcalls : t.calls = []) :
    B.entrySteps t = B.callerSteps place t := by
  unfold entrySteps
  rw [if_pos hentry, hplace, hcalls]

omit [DecidableEq P] [Domain S] in
theorem entrySteps_cons {place : MemoryLocation} {c : CallRecord S} {rest : List (CallRecord S)}
    (hentry : B.graph.isEntryNode t.site.node = true) (hplace : B.callerPlace? t = some place)
    (hcalls : t.calls = c :: rest) : B.entrySteps t = pure (B.statesFor [place] c.state c.caller rest) := by
  unfold entrySteps
  rw [if_pos hentry, hplace, hcalls]

theorem mem_entrySteps (h : (B.entrySteps t).result = .ok ts) (hu : u ∈ ts) : B.Step p t u := by
  by_cases hentry : B.graph.isEntryNode t.site.node = true
  · cases hplace : B.callerPlace? t with
    | none =>
      unfold entrySteps at h
      rw [if_pos hentry, hplace] at h
      cases h
      cases hu
    | some place =>
      cases hcalls : t.calls with
      | cons c rest =>
        rw [entrySteps_cons hentry hplace hcalls] at h
        cases h
        obtain ⟨l, hl, habove, rfl⟩ := mem_statesFor.1 hu
        obtain rfl := List.mem_singleton.1 hl
        exact .remembered hentry hplace hcalls habove
      | nil =>
        rw [entrySteps_nil hentry hplace hcalls] at h
        obtain ⟨called, d, b, caller, hcalled, hd, hb, hcaller, hreduce, habove, rfl⟩ :=
          (mem_callerSteps h).1 hu
        exact .cached hentry hplace hcalls hcalled hd hb hcaller hreduce habove
  · unfold entrySteps at h
    rw [if_neg hentry] at h
    cases h
    cases hu

/-! ### The whole step -/

theorem backtrace_eq_ok (h : (B.backtrace p t).result = .ok ts) :
    ∃ inside outside, (do return (← (B.graph.enteringIntraprocedural t.site.node).mapM
        (B.edgeSteps p t)).flatten : Logged (List (TracedState S))).result = .ok inside ∧
      (B.entrySteps t).result = .ok outside ∧ ts = inside ++ outside := by
  unfold backtrace at h
  cases hheap : t.site.place.isHeap with
  | true =>
    simp only [hheap, if_true] at h
    cases h
  | false =>
    simp only [hheap, Bool.false_eq_true, if_false, Logged.result_bind, bind_eq_ok] at h
    obtain ⟨parts, hparts, outside, houtside, h⟩ := h
    cases h
    refine ⟨parts.flatten, outside, ?_, houtside, rfl⟩
    rw [Logged.result_bind, hparts]
    rfl

/-- A backward step that succeeds returns exactly the states that are related to the given one. -/
theorem mem_backtrace (h : (B.backtrace p t).result = .ok ts) : u ∈ ts ↔ B.Step p t u := by
  obtain ⟨inside, outside, hinside, houtside, rfl⟩ := backtrace_eq_ok h
  rw [List.mem_append, Logged.mem_flatten hinside]
  constructor
  · rintro (⟨e, he, part, hpart, hu⟩ | hu)
    · exact mem_edgeSteps he hpart hu
    · exact mem_entrySteps houtside hu
  · -- the same edge or caller contributes the state, since all parts of the step succeed
    intro hstep
    cases hstep with
    | @edge e parent steps l he hparent hsteps hl habove =>
      obtain ⟨part, hpart⟩ := Logged.exists_ok_of_flatten hinside he
      refine .inl ⟨e, he, part, hpart, ?_⟩
      rcases edgeSteps_eq_ok hpart with ⟨hnone, _⟩ | ⟨parent', steps', places, hparent', hsteps', hplaces, rfl⟩
      · simp [hparent] at hnone
      · obtain rfl : parent = parent' := Option.some.inj (hparent.symm.trans hparent')
        obtain rfl : steps = steps' := Except.ok.inj (hsteps.symm.trans hsteps')
        obtain ⟨places', hplaces', hl⟩ := hl
        obtain rfl : places = places' := Except.ok.inj (hplaces.symm.trans hplaces')
        exact List.mem_append_right _ (mem_statesFor.2 ⟨l, hl, habove, rfl⟩)
    | @callee e parent current d id exit he hparent hcurrent hvar hd henters =>
      obtain ⟨part, hpart⟩ := Logged.exists_ok_of_flatten hinside he
      refine .inl ⟨e, he, part, hpart, ?_⟩
      rcases edgeSteps_eq_ok hpart with ⟨hnone, _⟩ | ⟨parent', steps, _, hparent', hsteps, _, rfl⟩
      · simp [hparent] at hnone
      · obtain rfl : parent = parent' := Option.some.inj (hparent.symm.trans hparent')
        apply List.mem_append_left
        exact (mem_entered hsteps).2 ⟨current, d, id, exit, hcurrent, hvar, hd, henters, rfl⟩
    | remembered hentry hplace hcalls habove =>
      rw [entrySteps_cons hentry hplace hcalls] at houtside
      cases houtside
      exact .inr (mem_statesFor.2 ⟨_, List.mem_singleton.2 rfl, habove, rfl⟩)
    | cached hentry hplace hcalls hcalled hd hb hcaller hreduce habove =>
      rw [entrySteps_nil hentry hplace hcalls] at houtside
      exact .inr ((mem_callerSteps houtside).2 ⟨_, _, _, _, hcalled, hd, hb, hcaller, hreduce, habove, rfl⟩)

end Backtracer

end BytecodeFlow
