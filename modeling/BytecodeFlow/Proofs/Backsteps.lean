import BytecodeFlow.Proofs.Effects
import BytecodeFlow.Proofs.MachineWords
import BytecodeFlow.Trace.Backstep

/-! # What a backward step returns

The notices of a backward step do not influence its result. Away from the entries of procedures the step
consists of the steps along the edges that lead to the node; each of these looks at the state before the
edge and at the callees of its node.
-/
namespace BytecodeFlow

instance : LawfulMonad Logged :=
  .mk' Logged
    (by
      rintro α ⟨_ | a, notices⟩
      · rfl
      · exact congrArg (Logged.mk _) (List.append_nil notices))
    (fun _ _ => rfl)
    (by
      rintro α β γ ⟨_ | a, notices⟩ f g
      · rfl
      · cases hf : f a with
        | mk result more =>
          cases result with
          | error e => simp [bind, Logged.bind, hf]
          | ok b => simp [bind, Logged.bind, hf])

theorem Logged.result_mapM {α β : Type} (f : α → Logged β) (l : List α) :
    (l.mapM f).result = l.mapM fun a => (f a).result := by
  induction l with
  | nil => rfl
  | cons a l ih =>
    simp only [List.mapM_cons, Logged.result_bind, ih, Logged.result_pure]
    rfl

theorem Label.instruction_of_isInvoke {l : Label} (h : l.isInvoke = true) :
    ∃ i dispatch target, l = .instruction i ∧ i.operation = .invoke dispatch target := by
  cases l with
  | instruction i =>
    cases hoperation : i.operation with
    | invoke dispatch target => exact ⟨i, dispatch, target, rfl, hoperation⟩
    | _ => simp [isInvoke, Instruction.isInvoke, hoperation] at h
  | call c => simp [isInvoke] at h
  | handler => simp [isInvoke] at h

namespace Backtracer

variable {S P V : Type} [DecidableEq S] [DecidableEq P] [Located S] [Observable S V] [Domain S] [Domain V]
  {B : Backtracer S P V} {p : P} {t : TracedState S} {caller returnSite entry current parent : S}
  {d : Edge × Call} {id : BlockId} {e : Edge}

omit [DecidableEq S] [DecidableEq P] [Located S] [Observable S V] [Domain S] [Domain V] in
@[simp] theorem result_stateAt (id : BlockId) (n : NodeId) :
    (B.stateAt id n).result = .ok ((B.cache.reachedOf id).firstAt? n) := by
  unfold stateAt
  cases (B.cache.reachedOf id).firstAt? n <;> rfl

theorem result_calleeStep_recursive (h : t.calls.any (·.callee == d.2.target) = true) :
    (B.calleeStep p t caller returnSite d.1 d.2).result = .ok .unavailable := by
  unfold calleeStep
  rw [if_pos h]
  rfl

theorem result_calleeStep_missing (hfresh : t.calls.any (·.callee == d.2.target) = false)
    (hreduce : B.reduce caller d.1.target d.2 = .ok entry)
    (hfind : B.cache.find? d.2.target entry p = none) :
    (B.calleeStep p t caller returnSite d.1 d.2).result = .ok .unavailable := by
  unfold calleeStep
  simp only [hfresh, Bool.false_eq_true, if_false, Logged.result_bind, Logged.result_ofExcept, hreduce, hfind,
    Except.bind]
  rfl

/-- Where a step into a callee leads whose block is cached. -/
theorem result_calleeStep (hfresh : t.calls.any (·.callee == d.2.target) = false)
    (hreduce : B.reduce caller d.1.target d.2 = .ok entry)
    (hfind : B.cache.find? d.2.target entry p = some id) :
    (B.calleeStep p t caller returnSite d.1 d.2).result =
      if outsideResult d.2.target t.site.place then .ok .unaffected
      else match B.graph.returnExit? d.2.target with
        | none => .ok .unavailable
        | some exit => match (B.cache.reachedOf id).firstAt? exit with
          | none => .ok .unavailable
          | some returned =>
            if !B.above returned t.site.place then .ok .unaffected
            else (B.expand caller returned d.1.target d.2).map fun expanded =>
              if Domain.le (relocate (location returnSite) expanded) returnSite then
                .entered ⟨⟨t.site.place, exit⟩, id, ⟨d.2.target, t.block, caller⟩ :: t.calls⟩
              else .unaffected := by
  unfold calleeStep
  simp only [hfresh, Bool.false_eq_true, if_false]
  simp only [Logged.result_bind, Logged.result_ofExcept, hreduce, hfind, Except.bind]
  split
  · rfl
  · cases B.graph.returnExit? d.2.target with
    | none => rfl
    | some exit =>
      simp only [Logged.result_bind, result_stateAt, Except.bind]
      cases (B.cache.reachedOf id).firstAt? exit with
      | none => rfl
      | some returned =>
        simp only
        split
        · rfl
        · simp only [Logged.result_bind, Logged.result_ofExcept]
          cases B.expand caller returned d.1.target d.2 with
          | error f => rfl
          | ok expanded =>
            simp only [Except.bind, Except.map]
            split <;> rfl

omit [DecidableEq S] [DecidableEq P] [Domain S] in
theorem mem_statesFor {places : List MemoryLocation} {s : S} {block : BlockId}
    {calls : List (CallRecord S)} {u : TracedState S} : u ∈ B.statesFor places s block calls ↔
      ∃ l ∈ places, B.above s l = true ∧ u = ⟨⟨l, location s⟩, block, calls⟩ := by
  simp only [statesFor, List.mem_map, List.mem_filter, List.mem_eraseDups]
  constructor
  · rintro ⟨l, ⟨hl, habove⟩, rfl⟩
    exact ⟨l, hl, habove, rfl⟩
  · rintro ⟨l, hl, habove, rfl⟩
    exact ⟨l, ⟨hl, habove⟩, rfl⟩

/-- Whether the callees explain the value, so that an invocation is passed over. -/
def explained (B : Backtracer S P V) (n : NodeId) (steps : List (CalleeStep S)) : Bool :=
  !B.graph.callsUnknown n && !steps.any CalleeStep.isUnavailable &&
    !(steps.filterMap CalleeStep.entered?).isEmpty

/-- The locations listed before an edge where nothing exceeds the limits. -/
def sourcesBefore (B : Backtracer S P V) (e : Edge) (explained : Bool) (l : MemoryLocation) : List MemoryLocation :=
  match e.label with
  | .instruction i => if i.isInvoke && explained then [] else i.sources (B.reaches e.source l) l
  | .handler => [l]
  | .call _ => []

omit [DecidableEq S] [DecidableEq P] [Located S] [Observable S V] [Domain S] [Domain V] in
theorem placesBefore_ideal (hlimits : B.limits = .ideal)
    (hswap : ∀ i, e.label = .instruction i → i.operation = .swap → i.pushes ≤ 2) (explained : Bool)
    (l : MemoryLocation) : B.placesBefore e explained l = .ok (B.sourcesBefore e explained l) := by
  unfold placesBefore sourcesBefore
  cases hlabel : e.label with
  | instruction i =>
    simp only [hlimits]
    split
    · rfl
    · exact Instruction.predecessors_ideal (hswap i hlabel)
  | handler => rfl
  | call c => rfl

theorem result_edgeSteps_none (h : (B.cache.reachedOf t.block).firstAt? e.source = none) :
    (B.edgeSteps p t e).result = .ok [] := by
  unfold edgeSteps
  simp only [Logged.result_bind, result_stateAt, h, Except.bind]
  rfl

theorem result_edgeSteps_some {steps : List (CalleeStep S)}
    (h : (B.cache.reachedOf t.block).firstAt? e.source = some parent)
    (hsteps : (B.calleeSteps p t e.source parent).result = .ok steps) :
    (B.edgeSteps p t e).result = (B.placesBefore e (B.explained e.source steps) t.site.place).map fun places =>
      steps.filterMap CalleeStep.entered? ++ B.statesFor places parent t.block t.calls := by
  unfold edgeSteps
  simp only [Logged.result_bind, Logged.result_ofExcept, result_stateAt, h, hsteps, Except.bind]
  rw [explained]
  cases B.placesBefore e _ t.site.place <;> rfl

theorem result_calleeSteps (n : NodeId) (hvar : ∀ j, t.site.place ≠ .var j)
    (h : (B.cache.reachedOf t.block).firstAt? t.site.node = some current) :
    (B.calleeSteps p t n parent).result =
      (B.graph.knownCalls n).mapM fun d => (B.calleeStep p t parent current d.1 d.2).result := by
  unfold calleeSteps
  cases hplace : t.site.place with
  | var j => exact absurd hplace (hvar j)
  | stack j => simp only [Logged.result_bind, result_stateAt, h, Except.bind, Logged.result_mapM]
  | static f => simp only [Logged.result_bind, result_stateAt, h, Except.bind, Logged.result_mapM]
  | heap f => simp only [Logged.result_bind, result_stateAt, h, Except.bind, Logged.result_mapM]

theorem result_calleeSteps_var {parent : NodeId} {s : S} {j : Nat} (h : t.site.place = .var j) :
    (B.calleeSteps p t parent s).result = .ok [] := by
  unfold calleeSteps
  rw [h]
  rfl

theorem result_calleeSteps_none {parent : NodeId} {s : S}
    (h : (B.cache.reachedOf t.block).firstAt? t.site.node = none) :
    (B.calleeSteps p t parent s).result = .ok [] := by
  unfold calleeSteps
  split
  · rfl
  · simp only [Logged.result_bind, result_stateAt, h, Except.bind]
    rfl

/-- Away from procedure entries, a backward step consists of the steps along the edges. -/
theorem result_backtrace (hheap : t.site.place.isHeap = false)
    (hentry : B.graph.isEntryNode t.site.node = false)
    (hedges : ∀ e ∈ B.graph.enteringIntraprocedural t.site.node, ∃ us, (B.edgeSteps p t e).result = .ok us) :
    ∃ ts, (B.backtrace p t).result = .ok ts ∧
      ∀ e ∈ B.graph.enteringIntraprocedural t.site.node, ∀ us, (B.edgeSteps p t e).result = .ok us →
        ∀ u ∈ us, u ∈ ts := by
  obtain ⟨parts, hparts⟩ := exists_mapM_ok hedges
  refine ⟨parts.flatten ++ [], ?_, fun e he us hus u hu => ?_⟩
  · unfold backtrace entrySteps
    simp only [hheap, hentry, Bool.false_eq_true, if_false, Logged.result_bind, Logged.result_mapM, hparts,
      Except.bind]
    rfl
  · obtain ⟨us', hmem, hus'⟩ := exists_of_forall₂ (mapM_eq_ok.1 hparts) he
    obtain rfl : us = us' := Except.ok.inj (hus.symm.trans hus')
    exact List.mem_append_left _ (List.mem_flatten.2 ⟨us, hmem, hu⟩)

end Backtracer

end BytecodeFlow
