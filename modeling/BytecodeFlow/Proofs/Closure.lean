import BytecodeFlow.Proofs.MachineAnalysis

/-! # Cached blocks are closed

In the analysis of machine states nothing that can be reached is dropped: a cached block covers its entry
state and, for each of its states, whatever the edges that leave the state's node lead to. A call is
covered by the exits of a cached block of its target or, where it was given up, like an ordinary
instruction. Neither aborts, depth limits and recursion nor analyses that fail make a difference.
-/
namespace BytecodeFlow

namespace MachineState

variable {V P : Type} [Inhabited V] [JoinDomain V] [DecidableEq V] [DecidableEq P]

def EdgeCovered (I : Interpreter V) (b : Block (MachineState V)) (s : MachineState V) (e : Edge) : Prop :=
  ∃ t, s.along I e = .ok [t] ∧ b.Covers (relocate e.target t)

/-- The target of the call has a block for the reduced state, and the expansions of its exits are
covered. -/
def CallCovered (c : BlockCache (MachineState V) P) (p : P) (b : Block (MachineState V))
    (s : MachineState V) (e : Edge) (d : Edge × Call) : Prop :=
  ∃ k b', s.reduce d.1.target d.2 = .ok k ∧ c.get? d.2.target k p = some b' ∧
    ∀ x ∈ b'.exits, ∃ t, s.expand x d.2 = .ok t ∧ b.Covers (relocate e.target t)

end MachineState

namespace Interpreter

variable {V P : Type} [Inhabited V] [JoinDomain V] [DecidableEq V] [DecidableEq P]

omit [DecidableEq P] in
theorem edgeCovered_of_along {I : Interpreter V} {g : FlowGraph} {O : Operators (MachineState V) P}
    {options : Options} {p : P} {b : Block (MachineState V)} {s : MachineState V} {e : Edge}
    (he : e ∈ g.leavingIntraprocedural s.node) {k l : List (MachineState V)}
    (halong : (I.interprocedural g O options).along s e p = .ok k) (hsub : ∀ t ∈ k, t ∈ l)
    (hcovers : ∀ t ∈ l, b.Covers (relocate e.target t)) : MachineState.EdgeCovered I b s e := by
  obtain ⟨t, rfl⟩ := MachineState.along_eq_singleton (FlowGraph.mem_leavingIntraprocedural.1 he).2.2 halong
  exact ⟨t, halong, hcovers t (hsub t List.mem_cons_self)⟩

/-- Whatever was analysed and however it ended, every cached block covers its entry state and all that its
states lead to, along edges and through calls. -/
theorem cached_block_closed {V P : Type} [Inhabited V] [JoinDomain V] [DecidableEq V] [ValueLattice V]
    [DecidableEq P] (I : Interpreter V) (g : FlowGraph) (O : Operators (MachineState V) P)
    (hO : O = .sep ∨ O = .join) (options : Options) {σ : Session (MachineState V) P}
    (hσ : (I.interprocedural g O options).Visited (fun _ => True) σ) {m : Method} {k : MachineState V}
    {p : P} {b : Block (MachineState V)} (hb : σ.cache.get? m k p = some b) :
    b.Covers k ∧ ∀ s ∈ b.reached.all.toList, ∀ e ∈ g.leavingIntraprocedural s.node,
      (e.label.isInvoke = false → s.EdgeCovered I b e) ∧
      (e.label.isInvoke = true → ∀ d ∈ g.knownCalls s.node,
        s.EdgeCovered I b e ∨ s.CallCovered σ.cache p b e d) ∧
      (e.label.isInvoke = true → g.knownCalls s.node = [] ∨ g.callsUnknown s.node = true →
        s.EdgeCovered I b e) := by
  have hready : Interprocedural.Ready _ True [] σ :=
    hσ.ready (covering hO) (.inl trivial) fun _ _ => .inl trivial
  have hcomplete := hready.blocks m k p b hb
  refine ⟨hcomplete.entry, fun s hs e he => ?_⟩
  obtain ⟨l, hl, hcovers⟩ := hcomplete.followed hs he
  refine ⟨fun hplain => ?_, fun hinvoke d hd => ?_, fun hinvoke hapart => ?_⟩
  · exact edgeCovered_of_along he (hl.along_of_plain hplain) (fun _ ht => ht) hcovers
  · rcases hl.call hinvoke hd with ⟨_, k', halong, hsub⟩ | ⟨k', b', hreduce, hget, hexits⟩
    · exact .inl (edgeCovered_of_along he halong hsub hcovers)
    · refine .inr ⟨k', b', hreduce, hget, fun x hx => ?_⟩
      obtain ⟨t, ht, hexpand⟩ := hexits x hx
      exact ⟨t, hexpand, hcovers t ht⟩
  · have hapart : (I.interprocedural g O options).apart (location s) = true := by
      rcases hapart with hnone | hunknown
      · exact Bool.or_eq_true_iff.2 (.inl (List.isEmpty_iff.2 hnone))
      · exact Bool.or_eq_true_iff.2 (.inr hunknown)
    obtain ⟨k', halong, hsub⟩ := hl.along_of_apart hapart
    exact edgeCovered_of_along he halong hsub hcovers

/-! ### An analysis that is aborted inside a call, and one that is not -/

/-- The first analysis is aborted while it runs the identity. -/
def creatorSession : Session (MachineState (Powerset Nat)) Unit :=
  (creatorAnalysis.analyze 5 creator (creatorEntry 1) ()).final
    { (creatorAnalysis.analyze 5 creator (creatorEntry 0) ()).final (.start (.atPolls [3])) with
      signal := .never }

theorem cached_block_closed_creator :
    ∃ b, creatorSession.cache.get? creator (creatorEntry 1) () = some b ∧ b.Covers (creatorEntry 1) ∧
      ∀ s ∈ b.reached.all.toList, ∀ e ∈ creatorGraph.leavingIntraprocedural s.node,
        e.label.isInvoke = true → ∀ d ∈ creatorGraph.knownCalls s.node,
          s.EdgeCovered counting b e ∨ s.CallCovered creatorSession.cache () b e d := by
  have hvisited : creatorAnalysis.Visited (fun _ => True) creatorSession :=
    .analyze _ _ _ _ (.signal trivial (.analyze _ _ _ _ (.start trivial)))
  have hsome : (creatorSession.cache.get? creator (creatorEntry 1) ()).isSome = true := by
    decide +kernel
  obtain ⟨b, hget⟩ := Option.isSome_iff_exists.1 hsome
  have hclosed := cached_block_closed counting creatorGraph .join (.inr rfl) .initial hvisited hget
  exact ⟨b, hget, hclosed.1, fun s hs e he => (hclosed.2 s hs e he).2.1⟩

end Interpreter

end BytecodeFlow
