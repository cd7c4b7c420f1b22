import BytecodeFlow.FlowGraph.Assembly
import Mathlib.Logic.Relation

/-! # Methods and the calls between them

Graphs are built by adding nodes and edges. Since nothing that was added changes, a call edge that does
not lead to unavailable code leads to the entry of its target. When no method can call itself through
others, a method that is called is not among those that wait for its caller.
-/
namespace BytecodeFlow

namespace FlowGraph

/-- The graphs that arise from the empty one by adding nodes and edges. -/
inductive Built : FlowGraph → Prop
  | empty : Built empty
  | node {g : FlowGraph} (m : Method) (offset : Int) : Built g → Built (g.addNode m offset).1
  | instruction {g : FlowGraph} (source target : NodeId) (i : Instruction) :
    Built g → Built (g.addInstruction source target i).1
  | handler {g : FlowGraph} (source target : NodeId) : Built g → Built (g.addHandler source target).1
  | call {g : FlowGraph} (source : NodeId) (c : Call) : Built g → Built (g.addCall source c).1

def methodAt? (g : FlowGraph) (n : NodeId) : Option Method := (g.node n).method?

/-- Edges inside a method lead to nodes of that method. -/
def Confined (g : FlowGraph) : Prop :=
  ∀ e ∈ g.edges, e.label.isIntraprocedural = true → g.methodAt? e.target = g.methodAt? e.source

def Calls (g : FlowGraph) (m t : Method) : Prop :=
  ∃ n, g.methodAt? n = some m ∧ ∃ d ∈ g.knownCalls n, d.2.target = t

def Acyclic (g : FlowGraph) : Prop := ∀ m, ¬ Relation.TransGen g.Calls m m

variable {g : FlowGraph}

/-! ### Edges of a node -/

theorem mem_leavingIntraprocedural {n : NodeId} {e : Edge} :
    e ∈ g.leavingIntraprocedural n ↔
      e ∈ g.edges ∧ e.source = n ∧ e.label.isIntraprocedural = true := by
  simp only [leavingIntraprocedural, leaving, List.mem_filter, beq_iff_eq, and_assoc]

theorem mem_enteringIntraprocedural {n : NodeId} {e : Edge} :
    e ∈ g.enteringIntraprocedural n ↔
      e ∈ g.edges ∧ e.target = n ∧ e.label.isIntraprocedural = true := by
  simp only [enteringIntraprocedural, entering, List.mem_filter, beq_iff_eq, and_assoc]

theorem mem_callsOf {l : List Edge} {d : Edge × Call} :
    d ∈ callsOf l ↔ d.1 ∈ l ∧ d.1.label = .call d.2 := by
  obtain ⟨e, c⟩ := d
  simp only [callsOf, List.mem_filterMap, Option.map_eq_some_iff, Prod.mk.injEq]
  constructor
  · rintro ⟨e', he', c', hc', rfl, rfl⟩
    refine ⟨he', ?_⟩
    cases hl : e'.label with
    | call c => simpa [hl, Label.call?] using hc'
    | instruction i => simp [hl, Label.call?] at hc'
    | handler => simp [hl, Label.call?] at hc'
  · rintro ⟨he, hl⟩
    exact ⟨e, he, c, by simp [hl, Label.call?], rfl, rfl⟩

theorem mem_knownCalls {n : NodeId} {d : Edge × Call} :
    d ∈ g.knownCalls n ↔
      d.1 ∈ g.edges ∧ d.1.source = n ∧ d.1.label = .call d.2 ∧ d.1.target ≠ unknownNode := by
  simp [knownCalls, mem_callsOf, leaving, and_assoc]

/-! ### Where calls lead -/

theorem findNode_addNode {m k : Method} {offset o : Int} {n : NodeId}
    (h : g.findNode m offset = some n) : (g.addNode k o).1.findNode m offset = some n := by
  unfold addNode
  split
  · exact h
  · simp only [findNode, List.findIdx?_append] at h ⊢
    simp [h]

theorem node_of_findNode {m : Method} {offset : Int} {n : NodeId}
    (h : g.findNode m offset = some n) : g.nodes[n]? = some (.point m offset) := by
  obtain ⟨hn, hpoint, -⟩ := List.findIdx?_eq_some_iff_getElem.1 h
  rw [List.getElem?_eq_getElem hn]
  exact congrArg some (eq_of_beq hpoint)

theorem methodAt?_of_findNode {m : Method} {offset : Int} {n : NodeId} (h : g.findNode m offset = some n) :
    g.methodAt? n = some m := by
  simp [methodAt?, node, List.getD_eq_getElem?_getD, node_of_findNode h, Node.method?]

theorem methodAt?_entry {m : Method} {n : NodeId} (h : g.entry? m = some n) :
    g.methodAt? n = some m :=
  methodAt?_of_findNode h

theorem isEntryNode_of_entry {m : Method} {n : NodeId} (h : g.entry? m = some n) :
    g.isEntryNode n = true := by
  simp [isEntryNode, node, List.getD_eq_getElem?_getD, node_of_findNode h, Node.isEntry, Node.offset?]

theorem mem_entered_of_entry {m : Method} {n : NodeId} (h : g.entry? m = some n) :
    m ∈ g.entered := by
  have hmem : Node.point m entryOffset ∈ g.nodes := List.mem_of_getElem? (node_of_findNode h)
  simp only [entered, List.mem_filterMap, List.mem_filter]
  exact ⟨_, ⟨hmem, by simp [Node.isEntry, Node.offset?]⟩, rfl⟩

/-- Every call leads to unavailable code or to the entry of its target. -/
theorem Built.call_target (h : g.Built) : ∀ e ∈ g.edges, ∀ c, e.label = .call c →
    e.target = unknownNode ∨ g.entry? c.target = some e.target := by
  induction h with
  | empty => simp [FlowGraph.empty]
  | @node g m offset _ ih =>
    have hedges : (g.addNode m offset).1.edges = g.edges := by
      unfold addNode
      split <;> rfl
    intro e he c hc
    exact (ih e (hedges ▸ he) c hc).imp_right findNode_addNode
  | instruction source target i _ ih =>
    intro e he c hc
    rcases List.mem_append.1 he with he | he
    · exact ih e he c hc
    · rw [List.mem_singleton.1 he] at hc
      simp at hc
  | handler source target _ ih =>
    intro e he c hc
    rcases List.mem_append.1 he with he | he
    · exact ih e he c hc
    · rw [List.mem_singleton.1 he] at hc
      simp at hc
  | @call g source d _ ih =>
    intro e he c hc
    rcases List.mem_append.1 he with he | he
    · exact ih e he c hc
    · obtain rfl := List.mem_singleton.1 he
      obtain rfl : d = c := by simpa using hc
      change g.callTarget d.target = unknownNode ∨ g.entry? d.target = some (g.callTarget d.target)
      unfold callTarget
      cases g.entry? d.target with
      | none => exact .inl rfl
      | some n => exact .inr rfl

theorem Built.entry?_of_knownCall (h : g.Built) {n : NodeId} {d : Edge × Call}
    (hd : d ∈ g.knownCalls n) : g.entry? d.2.target = some d.1.target := by
  obtain ⟨he, _, hl, hne⟩ := mem_knownCalls.1 hd
  exact (h.call_target d.1 he d.2 hl).resolve_left hne

/-! ### Assembled graphs -/

theorem Built.mention (h : g.Built) (m : Method) (offset : Option Int) : (g.mention m offset).1.Built := by
  cases offset with
  | none => exact h
  | some offset => exact h.node m offset

theorem Built.assembleStep (h : g.Built) (d : Directive) : (g.assembleStep d).1.Built := by
  cases d with
  | method m => exact ((h.node m _).node m _).node m _
  | node m offset => exact h.node m offset
  | instruction m source target i => exact ((h.mention m source).mention m target).instruction _ _ i
  | handler m source target => exact ((h.mention m source).mention m target).handler _ _
  | call m source dispatch target => exact (h.mention m source).call _ _
  | invoke m source target dispatch callee =>
    exact (((h.mention m source).mention m target).instruction _ _ _).call _ _

theorem built_assemble (directives : List Directive) : (assemble directives).graph.Built := by
  have hfold : ∀ {a : Assembly}, a.graph.Built → (directives.foldl Assembly.add a).graph.Built := by
    induction directives with
    | nil => exact fun h => h
    | cons d directives ih => exact fun h => ih (h.assembleStep d)
  exact hfold .empty

/-- No method calls itself if every call leads to a method of lower rank. -/
theorem acyclic_of_rank (rank : Method → Nat)
    (hrank : ∀ e ∈ g.edges, ∀ c ∈ e.label.call?, ∀ m ∈ g.methodAt? e.source, rank c.target < rank m) :
    g.Acyclic := by
  have hcalls : ∀ {m t : Method}, g.Calls m t → rank t < rank m := by
    rintro m t ⟨n, hm, d, hd, rfl⟩
    obtain ⟨he, rfl, hl, _⟩ := mem_knownCalls.1 hd
    exact hrank d.1 he d.2 (by simp [hl, Label.call?]) m hm
  have htrans : ∀ {m t : Method}, Relation.TransGen g.Calls m t → rank t < rank m := by
    intro m t h
    induction h with
    | single h => exact hcalls h
    | tail _ h ih => exact Nat.lt_trans (hcalls h) ih
  exact fun m h => Nat.lt_irrefl _ (htrans h)

/-! ### Methods that wait for one another -/

/-- All these methods have called the given one, directly or through others. -/
def Awaited (g : FlowGraph) (callers : List Method) (m : Method) : Prop :=
  ∀ c ∈ callers, Relation.TransGen g.Calls c m

theorem awaited_nil (m : Method) : g.Awaited [] m := by
  simp [Awaited]

theorem Awaited.call {callers : List Method} {m t : Method} (h : g.Awaited callers m)
    (hcall : g.Calls m t) : g.Awaited (callers ++ [m]) t := by
  intro c hc
  rcases List.mem_append.1 hc with hc | hc
  · exact (h c hc).tail hcall
  · rw [List.mem_singleton.1 hc]
    exact .single hcall

theorem Awaited.not_mem {callers : List Method} {m : Method} (h : g.Awaited callers m)
    (hg : g.Acyclic) : m ∉ callers := fun hm => hg m (h m hm)

end FlowGraph

end BytecodeFlow
