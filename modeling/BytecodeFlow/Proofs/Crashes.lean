import BytecodeFlow.Machine.Analysis
import BytecodeFlow.Proofs.Backsteps
import BytecodeFlow.Proofs.CallGraph

/-! # Backward steps that do not stop the program

A backward step computes indices only where it lists the predecessors of a location. If these are in the range of
the machine for all locations that hold a value, and reducing and expanding states does not stop the program, no
backward step does.
-/
namespace BytecodeFlow

/-- All instructions of the graph are in range for the locations down to the given height. -/
def FlowGraph.Sized (limits : Limits) (height : Nat) (g : FlowGraph) : Prop :=
  ∀ e ∈ g.edges, ∀ i ∈ e.label.instruction?, i.Sized limits height

namespace Logged

variable {α β : Type}

/-- The computation does not stop the program, although it may fail. -/
def Survives (x : Logged α) : Prop := x.result ≠ .error .crash

theorem survives_of_result {x : Logged α} {a : α} (h : x.result = .ok a) : x.Survives := by
  intro hcrash
  cases h.symm.trans hcrash

theorem survives_pure (a : α) : (pure a : Logged α).Survives := survives_of_result rfl

theorem survives_ofExcept {r : Except Fault α} (h : r ≠ .error .crash) : (ofExcept r).Survives := h

theorem Survives.bind {x : Logged α} {f : α → Logged β} (hx : x.Survives)
    (hf : ∀ a, x.result = .ok a → (f a).Survives) : (x >>= f).Survives := by
  unfold Survives
  rw [result_bind]
  cases hr : x.result with
  | error e =>
    intro h
    exact hx (hr.trans (congrArg _ (Except.error.inj h)))
  | ok a => exact hf a hr

theorem survives_mapM {f : α → Logged β} {l : List α} (h : ∀ a ∈ l, (f a).Survives) : (l.mapM f).Survives := by
  induction l with
  | nil => exact survives_pure []
  | cons a l ih =>
    rw [List.mapM_cons]
    refine (h a List.mem_cons_self).bind fun b _ => ?_
    refine (ih fun c hc => h c (List.mem_cons_of_mem a hc)).bind fun bs _ => ?_
    exact survives_pure (b :: bs)

end Logged

namespace Backtracer

open Logged

variable {S P V : Type} [DecidableEq S] [DecidableEq P] [Located S] [Observable S V] [Domain S] [Domain V]
  {B : Backtracer S P V} {p : P} {t : TracedState S} {height : Nat} {e : Edge} {l : MemoryLocation}

/-- The program is in range for the locations down to the given height, and the operators do not stop it. -/
structure Sized (B : Backtracer S P V) (height : Nat) : Prop where
  graph : B.graph.Sized B.limits height
  reduces : ∀ s n c, B.reduce s n c ≠ .error .crash
  expands : ∀ s x n c, B.expand s x n c ≠ .error .crash

omit [DecidableEq S] [DecidableEq P] [Located S] [Observable S V] [Domain S] [Domain V] in
theorem exists_placesBefore (h : B.graph.Sized B.limits height) (he : e ∈ B.graph.edges) (hl : l.depth ≤ height)
    (explained : Bool) : ∃ places, B.placesBefore e explained l = .ok places := by
  unfold placesBefore
  cases hlabel : e.label with
  | instruction i =>
    simp only
    split
    · exact ⟨[], rfl⟩
    · exact (h e he i (by simp [hlabel, Label.instruction?])).exists_predecessors hl
  | handler => exact ⟨[l], rfl⟩
  | call c => exact ⟨[], rfl⟩

omit [DecidableEq S] [DecidableEq P] [Located S] [Observable S V] [Domain S] [Domain V] in
theorem survives_stateAt (id : BlockId) (n : NodeId) : (B.stateAt id n).Survives :=
  survives_of_result (result_stateAt id n)

namespace Sized

theorem calleeStep (h : B.Sized height) (caller returnSite : S) (e : Edge) (c : Call) :
    (B.calleeStep p t caller returnSite e c).Survives := by
  unfold Backtracer.calleeStep
  split
  · exact survives_pure _
  · refine (survives_ofExcept (h.reduces caller e.target c)).bind fun entry _ => ?_
    split
    · exact survives_pure _
    · split
      · exact survives_pure _
      · split
        · exact survives_pure _
        · refine (survives_stateAt _ _).bind fun returned? _ => ?_
          split
          · exact survives_pure _
          · split
            · exact survives_pure _
            · refine (survives_ofExcept (h.expands _ _ _ _)).bind fun expanded _ => ?_
              split <;> exact survives_pure _

theorem calleeSteps (h : B.Sized height) (n : NodeId) (s : S) : (B.calleeSteps p t n s).Survives := by
  unfold Backtracer.calleeSteps
  split
  · exact survives_pure _
  · refine (survives_stateAt _ _).bind fun current? _ => ?_
    split
    · exact survives_pure _
    · exact survives_mapM fun d _ => h.calleeStep _ _ _ _

theorem edgeSteps (h : B.Sized height) (he : e ∈ B.graph.edges) (ht : t.site.place.depth ≤ height) :
    (B.edgeSteps p t e).Survives := by
  unfold Backtracer.edgeSteps
  refine (survives_stateAt _ _).bind fun parent? _ => ?_
  split
  · exact survives_pure _
  · refine (h.calleeSteps _ _).bind fun callees _ => ?_
    obtain ⟨places, hplaces⟩ := exists_placesBefore h.graph he ht _
    exact Survives.bind (survives_of_result hplaces) fun places _ => survives_pure _

omit [DecidableEq P] [Domain S] in
theorem callerStep (h : B.Sized height) (place : MemoryLocation) (called : S) (e : Edge) (c : Call)
    (b : BlockId × Block S) : (B.callerStep place t called e c b).Survives := by
  unfold Backtracer.callerStep
  split
  · exact survives_pure _
  · refine (survives_ofExcept (h.reduces _ _ _)).bind fun entry _ => ?_
    split <;> exact survives_pure _

omit [DecidableEq P] [Domain S] in
theorem entrySteps (h : B.Sized height) : (B.entrySteps t).Survives := by
  unfold Backtracer.entrySteps
  split
  · split
    · exact survives_pure _
    · exact survives_pure _
    · refine (survives_stateAt _ _).bind fun called? _ => ?_
      split
      · exact survives_pure _
      · refine (survives_mapM fun d _ => ?_).bind fun steps _ => survives_pure _
        exact (survives_mapM fun b _ => h.callerStep _ _ _ _ b).bind fun steps _ => survives_pure _
  · exact survives_pure _

/-- A backward step from a location down to the given height does not stop the program. -/
theorem backtrace (h : B.Sized height) (ht : t.site.place.depth ≤ height) : (B.backtrace p t).Survives := by
  unfold Backtracer.backtrace
  split
  · exact survives_ofExcept (by simp)
  · refine (survives_mapM fun e he => ?_).bind fun inside _ => h.entrySteps.bind fun outside _ => survives_pure _
    exact h.edgeSteps (FlowGraph.mem_enteringIntraprocedural.1 he).1 ht

end Sized

end Backtracer

/-! ### Machine states -/

section MachineStates

variable {V P : Type} [Inhabited V]

omit [Inhabited V] in
theorem Frame.popN_ne_crash (f : Frame V) (count : Nat) : f.popN count ≠ .error .crash := by
  unfold popN
  split <;> simp

theorem MachineState.reduce_ne_crash (s : MachineState V) (n : NodeId) (c : Call) :
    s.reduce n c ≠ .error .crash := by
  unfold reduce
  simp only
  split <;> simp

omit [Inhabited V] in
theorem MachineState.expand_ne_crash (s x : MachineState V) (c : Call) : s.expand x c ≠ .error .crash := by
  unfold expand
  intro h
  split at h
  · rename_i e he
    exact Frame.popN_ne_crash _ _ (he.trans (congrArg _ (Except.error.inj h)))
  · split at h
    · rename_i e he
      exact Frame.popN_ne_crash _ _ (he.trans (congrArg _ (Except.error.inj h)))
    · cases h

/-- Passing machine states to callees and back does not stop the program. -/
theorem Interpreter.sized {I : Interpreter V} {g : FlowGraph} {limits : Limits} {height : Nat}
    (hg : g.Sized limits height) (O : Operators (MachineState V) P) (options : Options)
    (cache : BlockCache (MachineState V) P) (threshold : V) (extra : ExtraReach) :
    ((I.interprocedural g O options limits).backtracer cache threshold extra limits).Sized height where
  graph := hg
  reduces s n c := s.reduce_ne_crash n c
  expands s x _ c := s.expand_ne_crash x c

end MachineStates

end BytecodeFlow
