import BytecodeFlow.FlowGraph.Assembly
import BytecodeFlow.Machine.Analysis
import BytecodeFlow.Proofs.Lattice
import BytecodeFlow.Proofs.Procedures

/-! # Machine states stay in their methods

A machine state is merged at its own node, and a callee starts at its entry. So the states of the analysis
of machine states stay in their methods.
-/
namespace BytecodeFlow

namespace MachineState

variable {V P : Type} [Inhabited V]

theorem along_eq_singleton {I : Interpreter V} {s : MachineState V} {e : Edge} {l : List (MachineState V)}
    (he : e.label.isIntraprocedural = true) (h : s.along I e = .ok l) : ∃ t, l = [t] := by
  unfold along at h
  cases hlabel : e.label with
  | instruction i =>
    simp only [hlabel] at h
    cases hexecute : s.execute I i with
    | error f => simp [hexecute] at h
    | ok t => exact ⟨t, by simpa [hexecute, eq_comm] using h⟩
  | handler => exact ⟨_, by simpa [hlabel, eq_comm] using h⟩
  | call c => simp [hlabel, Label.isIntraprocedural] at he

theorem reduce_eq_ok {s k : MachineState V} {entry : NodeId} {c : Call} :
    s.reduce entry c = .ok k ↔ c.target.parameterSlots ≤ s.frame.stack.length ∧
      k = ⟨entry, ⟨arguments c.target s.frame.stack, []⟩, s.statics⟩ := by
  simp only [reduce]
  split
  · rename_i hshort
    simp [Nat.not_le.2 hshort]
  · rename_i hlong
    simp [Nat.not_lt.1 hlong, eq_comm]

/-- A method is entered at its entry. -/
theorem isEntryNode_of_entry {I : Interpreter V} {g : FlowGraph} {O : Operators (MachineState V) P}
    {options : Options} {m : Method} {k : MachineState V} (hbuilt : g.Built)
    (h : (I.interprocedural g O options).Entry m k) : g.isEntryNode k.node = true := by
  cases h with
  | start hentry => exact FlowGraph.isEntryNode_of_entry hentry
  | call hd hreduce =>
    obtain ⟨_, rfl⟩ := reduce_eq_ok.1 hreduce
    exact FlowGraph.isEntryNode_of_entry (hbuilt.entry?_of_knownCall hd)

omit [Inhabited V] in
theorem expand_eq_ok {s x t : MachineState V} {c : Call} :
    s.expand x c = .ok t ↔ c.target.descriptor.resultSlots ≤ x.frame.stack.length ∧
      c.target.parameterSlots ≤ s.frame.stack.length ∧
      t = ⟨s.node, ⟨s.frame.locals, x.frame.stack.take c.target.descriptor.resultSlots ++
        s.frame.stack.drop c.target.parameterSlots⟩, x.statics⟩ := by
  unfold expand Frame.popN
  by_cases hresult : x.frame.stack.length < c.target.descriptor.resultSlots
  · simp [hresult, Nat.not_le.2 hresult]
  · by_cases harguments : s.frame.stack.length < c.target.parameterSlots
    · simp [hresult, harguments, Nat.not_le.2 harguments]
    · simp [hresult, harguments, Nat.not_lt.1 hresult, Nat.not_lt.1 harguments, eq_comm]

end MachineState

namespace Interpreter

variable {V P : Type} [Inhabited V] [JoinDomain V] [DecidableEq V]

omit [Inhabited V] in
theorem covering [ValueLattice V] {O : Operators (MachineState V) P} (hO : O = .sep ∨ O = .join) :
    O.Covering := by
  rcases hO with rfl | rfl
  · exact Operators.covering_sep
  · exact Operators.covering_join

/-- Whatever analyses have been made, aborted and failed ones included, the cached blocks are complete as far
as calls were followed. -/
theorem complete_of_visited [ValueLattice V] [DecidableEq P] {I : Interpreter V} {g : FlowGraph}
    {O : Operators (MachineState V) P} (hO : O = .sep ∨ O = .join) {options : Options}
    {σ : Session (MachineState V) P} (hσ : (I.interprocedural g O options).Visited (fun _ => True) σ)
    {m : Method} {k : MachineState V} {p : P} {b : Block (MachineState V)}
    (hb : σ.cache.get? m k p = some b) :
    (I.interprocedural g O options).Complete True σ.cache m k p b :=
  (hσ.ready (covering hO) (.inl trivial) fun _ _ => .inl trivial).blocks m k p b hb

/-- Neither merging nor calls lead out of the methods of a graph whose edges stay inside them. -/
theorem modular (I : Interpreter V) {g : FlowGraph} {O : Operators (MachineState V) P}
    (hO : O = .sep ∨ O = .join) {options : Options} (hbuilt : g.Built) (hconfined : g.Confined)
    (hacyclic : g.Acyclic) (hdepth : options.maxDepth = none) :
    (I.interprocedural g O options).Modular where
  built := hbuilt
  confined := hconfined
  acyclic := hacyclic
  unbounded := hdepth
  location_relocate _ _ := rfl
  adjusted s p l := by rcases hO with rfl | rfl <;> rfl
  merged {c r} p hloc := by
    rcases hO with rfl | rfl
    · exact congrArg g.methodAt? hloc
    · change g.methodAt? (location (Operators.mergeJoin c r p)) = _
      unfold Operators.mergeJoin
      split
      · rfl
      · exact congrArg g.methodAt? hloc
  reduced {n d s k} hd hreduce := by
    have hentry := FlowGraph.methodAt?_entry (hbuilt.entry?_of_knownCall hd)
    obtain ⟨_, rfl⟩ := MachineState.reduce_eq_ok.1 hreduce
    exact hentry

/-! ### A small program -/

def creator : Method := ⟨"Main", "create", ⟨[], none⟩, true⟩

def identity : Method := ⟨"Main", "identity", ⟨[.base .int], some (.base .int)⟩, true⟩

/-- The creator passes a new object to the identity and drops the result. -/
def creatorGraph : FlowGraph :=
  (FlowGraph.assemble [.method creator, .method identity,
    .instruction identity (some 0) (some 1) (.load 0 false),
    .instruction identity (some 1) (some (-1)) (.ret 1),
    .instruction creator (some 0) (some 1) .new,
    .invoke creator (some 1) (some 2) .static identity,
    .instruction creator (some 2) (some (-1)) (.ret 0)]).graph

/-- New values are labelled by the number of their operands. -/
def counting : Interpreter (Powerset Nat) where
  result _ operands := .singleton operands.length
  invoke _ arguments := .singleton arguments.length
  caught := .empty

def creatorAnalysis : Interprocedural (MachineState (Powerset Nat)) Unit :=
  counting.interprocedural creatorGraph .join .initial

def creatorEntry (count : Nat) : MachineState (Powerset Nat) :=
  ⟨3, ⟨List.replicate count .empty, []⟩, .empty⟩

def labelledFields : Fields (Powerset Nat) := .ofList [("A", .singleton 7), ("B", .singleton 8)]

end Interpreter

end BytecodeFlow
