import BytecodeFlow.Proofs.CallGraph
import BytecodeFlow.Proofs.Collections
import Mathlib.Data.List.Induction
import Mathlib.Data.List.Nodup
import Mathlib.Data.List.Perm.Basic
import Mathlib.Data.Set.Function

/-! # Graphs under construction

A graph grows by additions of nodes, methods and edges. Its nodes are the unknown one and the points that were
mentioned, each once and in the order of their first mention, and its edges are those that were added. An addition
only appends, so the lookups of a graph stay valid. A table of the points beside the nodes gives the same answers as
a search through them.
-/
namespace BytecodeFlow

inductive Addition where
  | node (m : Method) (offset : Int)
  /-- The two exits and the entry of a method. -/
  | method (m : Method)
  | instruction (source target : NodeId) (i : Instruction)
  | handler (source target : NodeId)
  | call (source : NodeId) (c : Call)
  deriving DecidableEq, Repr

def Addition.points : Addition → List (Method × Int)
  | node m offset => [(m, offset)]
  | method m => [(m, returnOffset), (m, exceptionOffset), (m, entryOffset)]
  | instruction _ _ _ => []
  | handler _ _ => []
  | call _ _ => []

def Node.ofPoint (q : Method × Int) : Node := .point q.1 q.2

theorem Node.ofPoint_injective : Function.Injective Node.ofPoint := by
  rintro ⟨m, offset⟩ ⟨k, o⟩ h
  obtain ⟨rfl, rfl⟩ := Node.point.inj h
  rfl

theorem OrderedSet.mem_ofList {α : Type} [DecidableEq α] {l : List α} {a : α} : a ∈ ofList l ↔ a ∈ l := by
  induction l using List.reverseRecOn with
  | nil => exact Iff.rfl
  | append_singleton l b ih =>
    rw [ofList, List.foldl_concat, mem_insert, List.mem_append, List.mem_singleton]
    exact or_congr_left ih

namespace FlowGraph

variable {g : FlowGraph} {additions : List Addition} {a : Addition} {m : Method} {offset : Int} {n : NodeId} {e : Edge}

def extend (g : FlowGraph) : Addition → FlowGraph × Nat
  | .node m offset => g.addNode m offset
  | .method m => g.addMethod m
  | .instruction source target i => g.addInstruction source target i
  | .handler source target => g.addHandler source target
  | .call source c => g.addCall source c

def construct (additions : List Addition) : FlowGraph :=
  additions.foldl (fun g a => (g.extend a).1) empty

theorem construct_concat (additions : List Addition) (a : Addition) :
    construct (additions ++ [a]) = ((construct additions).extend a).1 :=
  List.foldl_concat _ _ _ _

/-! ### Nodes -/

def HasPoints (g : FlowGraph) (points : OrderedSet (Method × Int)) : Prop :=
  g.nodes = .unknown :: points.toList.map Node.ofPoint

theorem HasPoints.nodup {points : OrderedSet (Method × Int)} (h : g.HasPoints points) : g.nodes.Nodup := by
  rw [h, List.nodup_cons]
  refine ⟨fun hmem => ?_, points.nodup.map Node.ofPoint_injective⟩
  obtain ⟨q, _, hq⟩ := List.mem_map.1 hmem
  cases hq

/-- No two nodes are the same point, so the search finds the only node of a point. -/
theorem findNode_eq_some_iff (h : g.nodes.Nodup) :
    g.findNode m offset = some n ↔ g.nodes[n]? = some (.point m offset) := by
  refine ⟨node_of_findNode, fun hn => ?_⟩
  obtain ⟨hlt, hpoint⟩ := List.getElem?_eq_some_iff.1 hn
  refine List.findIdx?_eq_some_iff_getElem.2 ⟨hlt, by simp [hpoint], fun k hk hsame => ?_⟩
  have hkn : g.nodes[k] = g.nodes[n] := (eq_of_beq hsame).trans hpoint.symm
  exact absurd ((h.getElem_inj_iff).1 hkn) (by omega)

theorem node_eq_point_iff : g.node n = .point m offset ↔ g.nodes[n]? = some (.point m offset) := by
  rw [node, List.getD_eq_getElem?_getD]
  cases g.nodes[n]? <;> simp

theorem findNode_eq_none_iff : g.findNode m offset = none ↔ .point m offset ∉ g.nodes := by
  rw [findNode, List.findIdx?_eq_none_iff]
  constructor
  · intro h hmem
    simpa using h _ hmem
  · intro h x hx
    exact beq_false_of_ne fun heq => h (heq ▸ hx)

theorem HasPoints.mem_nodes {points : OrderedSet (Method × Int)} (h : g.HasPoints points) :
    .point m offset ∈ g.nodes ↔ (m, offset) ∈ points := by
  rw [h]
  simp [Node.ofPoint, OrderedSet.mem_toList]

/-- Nodes correspond to the points and the unknown node. -/
theorem HasPoints.bijOn_node {points : OrderedSet (Method × Int)} (h : g.HasPoints points) :
    Set.BijOn g.node {n | n < g.nodes.length} (insert .unknown (Node.ofPoint '' {q | q ∈ points})) := by
  have hnode : ∀ k, (hk : k < g.nodes.length) → g.node k = g.nodes[k] := fun k hk => by
    simp [node, List.getD_eq_getElem?_getD, hk]
  have hmem : ∀ x, x ∈ g.nodes ↔ x ∈ insert Node.unknown (Node.ofPoint '' {q | q ∈ points}) := by
    intro x
    rw [h]
    simp [OrderedSet.mem_toList]
  refine ⟨fun k hk => ?_, fun k hk j hj heq => ?_, fun x hx => ?_⟩
  · rw [hnode k hk, ← hmem]
    exact List.getElem_mem hk
  · rw [hnode k hk, hnode j hj] at heq
    exact h.nodup.getElem_inj_iff.1 heq
  · obtain ⟨k, hk, rfl⟩ := List.mem_iff_getElem.1 ((hmem x).2 hx)
    exact ⟨k, hk, hnode k hk⟩

theorem HasPoints.addNode {points : OrderedSet (Method × Int)} (h : g.HasPoints points) (m : Method) (offset : Int) :
    (g.addNode m offset).1.HasPoints (points.insert (m, offset)) := by
  unfold HasPoints FlowGraph.addNode
  rw [OrderedSet.toList_insert]
  cases hfind : g.findNode m offset with
  | some n =>
    have hmem : (m, offset) ∈ points.toList := h.mem_nodes.1 (List.mem_of_getElem? (node_of_findNode hfind))
    rw [if_pos hmem]
    exact h
  | none =>
    have hnot : (m, offset) ∉ points.toList := fun hmem => findNode_eq_none_iff.1 hfind (h.mem_nodes.2 hmem)
    rw [if_neg hnot, List.map_append, ← List.cons_append, ← h]
    rfl

theorem HasPoints.extend {points : OrderedSet (Method × Int)} (h : g.HasPoints points) (a : Addition) :
    (g.extend a).1.HasPoints (a.points.foldl .insert points) := by
  cases a with
  | node m offset => exact h.addNode m offset
  | method m => exact ((h.addNode m returnOffset).addNode m exceptionOffset).addNode m entryOffset
  | instruction source target i => exact h
  | handler source target => exact h
  | call source c => exact h

/-- The points of a graph are those that were mentioned, in the order of their first mention. -/
theorem hasPoints_construct (additions : List Addition) :
    (construct additions).HasPoints (.ofList (additions.flatMap Addition.points)) := by
  induction additions using List.reverseRecOn with
  | nil => rfl
  | append_singleton additions a ih =>
    rw [construct_concat, List.flatMap_append, List.flatMap_singleton, OrderedSet.ofList, List.foldl_append]
    exact ih.extend a

/-! ### Edges -/

def edge? (g : FlowGraph) : Addition → Option Edge
  | .node _ _ => none
  | .method _ => none
  | .instruction source target i => some ⟨g.edges.length, source, target, .instruction i⟩
  | .handler source target => some ⟨g.edges.length, source, target, .handler⟩
  | .call source c => some ⟨g.edges.length, source, g.callTarget c.target, .call c⟩

@[simp] theorem edges_addNode (g : FlowGraph) (m : Method) (offset : Int) : (g.addNode m offset).1.edges = g.edges := by
  unfold addNode
  split <;> rfl

theorem edges_extend (g : FlowGraph) (a : Addition) : (g.extend a).1.edges = g.edges ++ (g.edge? a).toList := by
  cases a with
  | node m offset => simp [extend, edge?]
  | method m => simp [extend, addMethod, edge?]
  | instruction source target i => rfl
  | handler source target => rfl
  | call source c => rfl

theorem id_of_edge? (h : g.edge? a = some e) : e.id = g.edges.length := by
  cases a <;> cases h <;> rfl

/-- An edge with a call comes from the addition of that call. -/
theorem edge?_call {c : Call} (h : g.edge? a = some e) (hc : e.label = .call c) :
    a = .call e.source c ∧ e.target = g.callTarget c.target := by
  cases a <;> cases h <;> cases hc
  exact ⟨rfl, rfl⟩

/-- Edges are numbered in their order. -/
theorem ids_construct (additions : List Addition) :
    (construct additions).edges.map (·.id) = List.range (construct additions).edges.length := by
  induction additions using List.reverseRecOn with
  | nil => rfl
  | append_singleton additions a ih =>
    rw [construct_concat, edges_extend]
    cases hedge : (construct additions).edge? a with
    | none => simpa using ih
    | some e => simp [ih, List.range_succ, id_of_edge? hedge]

theorem ascending_construct (additions : List Addition) : (construct additions).edges.Pairwise (·.id < ·.id) := by
  rw [← List.pairwise_map, ids_construct]
  exact List.pairwise_lt_range

/-- Every edge has been added. -/
theorem exists_addition (he : e ∈ (construct additions).edges) :
    ∃ earlier a later, additions = earlier ++ a :: later ∧ (construct earlier).edge? a = some e := by
  induction additions using List.reverseRecOn with
  | nil => cases he
  | append_singleton additions b ih =>
    rw [construct_concat, edges_extend, List.mem_append, Option.mem_toList] at he
    rcases he with he | he
    · obtain ⟨earlier, a, later, rfl, h⟩ := ih he
      exact ⟨earlier, a, later ++ [b], by simp, h⟩
    · exact ⟨additions, b, [], rfl, he⟩

/-! ### Later additions -/

theorem nodes_prefix_addNode (g : FlowGraph) (m : Method) (offset : Int) :
    g.nodes <+: (g.addNode m offset).1.nodes := by
  unfold addNode
  split
  · exact List.prefix_rfl
  · exact List.prefix_append _ _

/-- An addition changes no node and no edge. -/
theorem prefix_extend (g : FlowGraph) (a : Addition) :
    g.nodes <+: (g.extend a).1.nodes ∧ g.edges <+: (g.extend a).1.edges := by
  refine ⟨?_, ⟨_, (edges_extend g a).symm⟩⟩
  cases a with
  | node m offset => exact nodes_prefix_addNode g m offset
  | method m =>
    exact ((nodes_prefix_addNode g m _).trans (nodes_prefix_addNode _ m _)).trans (nodes_prefix_addNode _ m _)
  | instruction source target i => exact List.prefix_rfl
  | handler source target => exact List.prefix_rfl
  | call source c => exact List.prefix_rfl

theorem prefix_construct (additions later : List Addition) :
    (construct additions).nodes <+: (construct (additions ++ later)).nodes ∧
      (construct additions).edges <+: (construct (additions ++ later)).edges := by
  induction later using List.reverseRecOn with
  | nil => simp
  | append_singleton later a ih =>
    rw [← List.append_assoc, construct_concat]
    obtain ⟨hnodes, hedges⟩ := prefix_extend (construct (additions ++ later)) a
    exact ⟨ih.1.trans hnodes, ih.2.trans hedges⟩

/-- An edge that has been added stays where it is. -/
theorem getElem?_edges_construct {earlier : List Addition} (h : (construct earlier).edge? a = some e)
    (later : List Addition) : (construct (earlier ++ a :: later)).edges[e.id]? = some e := by
  have hadded : (construct (earlier ++ [a])).edges[e.id]? = some e := by
    rw [construct_concat, edges_extend, h, id_of_edge? h]
    simp
  have hprefix := (prefix_construct (earlier ++ [a]) later).2
  rw [List.append_assoc, List.singleton_append] at hprefix
  obtain ⟨rest, hrest⟩ := hprefix
  obtain ⟨hlt, _⟩ := List.getElem?_eq_some_iff.1 hadded
  rw [← hrest, List.getElem?_append_left hlt, hadded]

/-! ### Edges of a node -/

/-- A list of edges falls into two lists, which keep its order. -/
structure Split (whole left right : List Edge) : Prop where
  perm : (left ++ right).Perm whole
  disjoint : left.Disjoint right
  left : left.Sublist whole
  right : right.Sublist whole

theorem split_filter (l : List Edge) (p : Edge → Bool) : Split l (l.filter p) (l.filter (!p ·)) where
  perm := List.filter_append_perm p l
  disjoint x hleft hright := by simp_all
  left := List.filter_sublist
  right := List.filter_sublist

/-- The calls along a list of edges are the edges that leave the method. -/
theorem map_callsOf (l : List Edge) : (callsOf l).map (·.1) = l.filter (!·.label.isIntraprocedural) := by
  induction l with
  | nil => rfl
  | cons e l ih =>
    rw [callsOf] at ih ⊢
    rw [List.filterMap_cons, List.filter_cons]
    cases hlabel : e.label with
    | instruction i => simpa [Label.call?, Label.isIntraprocedural] using ih
    | handler => simpa [Label.call?, Label.isIntraprocedural] using ih
    | call c => simpa [Label.call?, Label.isIntraprocedural] using ih

def unknownCalls (g : FlowGraph) (n : NodeId) : List (Edge × Call) :=
  (callsOf (g.leaving n)).filter (·.1.target == unknownNode)

theorem map_filter_target (l : List (Edge × Call)) (p : Edge → Bool) :
    (l.filter (p ·.1)).map (·.1) = (l.map (·.1)).filter p :=
  List.filter_map.symm

/-- What the lists of the edges of a node hold. All of them are in the order of the edge numbers. -/
structure EdgeViews (g : FlowGraph) (n : NodeId) : Prop where
  mem_leaving (e : Edge) : e ∈ g.leaving n ↔ e ∈ g.edges ∧ e.source = n
  mem_entering (e : Edge) : e ∈ g.entering n ↔ e ∈ g.edges ∧ e.target = n
  leaving_ascending : (g.leaving n).Pairwise (·.id < ·.id)
  entering_ascending : (g.entering n).Pairwise (·.id < ·.id)
  leaving_split : Split (g.leaving n) (g.leavingIntraprocedural n) ((callsOf (g.leaving n)).map (·.1))
  entering_split : Split (g.entering n) (g.enteringIntraprocedural n) ((g.enteringCalls n).map (·.1))
  calls_split : Split ((callsOf (g.leaving n)).map (·.1)) ((g.knownCalls n).map (·.1)) ((g.unknownCalls n).map (·.1))
  intraprocedural : ∀ e ∈ g.leavingIntraprocedural n ++ g.enteringIntraprocedural n, ∀ c, e.label ≠ .call c
  calls : ∀ d ∈ callsOf (g.leaving n) ++ g.enteringCalls n, d.1.label = .call d.2
  known : ∀ d ∈ g.knownCalls n, g.entry? d.2.target = some d.1.target
  unknown : ∀ d ∈ g.unknownCalls n, d.1.target = unknownNode
  callsUnknown : g.callsUnknown n = true ↔ g.unknownCalls n ≠ []

theorem Built.extend (h : g.Built) (a : Addition) : (g.extend a).1.Built := by
  cases a with
  | node m offset => exact h.node m offset
  | method m => exact ((h.node m _).node m _).node m _
  | instruction source target i => exact h.instruction source target i
  | handler source target => exact h.handler source target
  | call source c => exact h.call source c

theorem built_construct (additions : List Addition) : (construct additions).Built := by
  induction additions using List.reverseRecOn with
  | nil => exact .empty
  | append_singleton additions a ih =>
    rw [construct_concat]
    exact ih.extend a

theorem edgeViews (hids : g.edges.Pairwise (·.id < ·.id)) (hbuilt : g.Built) (n : NodeId) : g.EdgeViews n where
  mem_leaving e := by simp [leaving]
  mem_entering e := by simp [entering]
  leaving_ascending := hids.filter _
  entering_ascending := hids.filter _
  leaving_split := by
    rw [map_callsOf]
    exact split_filter _ _
  entering_split := by
    rw [enteringCalls, map_callsOf]
    exact split_filter _ _
  calls_split := by
    have h := split_filter ((callsOf (g.leaving n)).map (·.1)) (·.target != unknownNode)
    simp only [bne, Bool.not_not, ← map_filter_target] at h
    exact h
  intraprocedural e he c hc := by
    rcases List.mem_append.1 he with he | he
    · obtain ⟨_, _, hlabel⟩ := mem_leavingIntraprocedural.1 he
      rw [hc] at hlabel
      cases hlabel
    · obtain ⟨_, _, hlabel⟩ := mem_enteringIntraprocedural.1 he
      rw [hc] at hlabel
      cases hlabel
  calls d hd := by
    rcases List.mem_append.1 hd with hd | hd
    · exact (mem_callsOf.1 hd).2
    · exact (mem_callsOf.1 hd).2
  known d hd := hbuilt.entry?_of_knownCall hd
  unknown d hd := eq_of_beq (List.mem_filter.1 hd).2
  callsUnknown := by
    rw [FlowGraph.callsUnknown, unknownCalls, List.any_eq_true, ne_eq, List.filter_eq_nil_iff]
    simp

end FlowGraph

/-! ### A table of the points -/

/-- A graph with a table of its points. -/
structure IndexedGraph where
  graph : FlowGraph
  table : Method × Int → Option NodeId

namespace IndexedGraph

def empty : IndexedGraph := ⟨.empty, fun _ => none⟩

/-- Asks the table whether the point is there. -/
def addNode (g : IndexedGraph) (m : Method) (offset : Int) : IndexedGraph × NodeId :=
  match g.table (m, offset) with
  | some n => (g, n)
  | none =>
    let n := g.graph.nodes.length
    (⟨{ g.graph with nodes := g.graph.nodes ++ [.point m offset] },
      Function.update g.table (m, offset) (some n)⟩, n)

def addEdge (g : IndexedGraph) (source target : NodeId) (label : Label) : IndexedGraph × EdgeId :=
  let added := g.graph.addEdge source target label
  (⟨added.1, g.table⟩, added.2)

def extend (g : IndexedGraph) : Addition → IndexedGraph × Nat
  | .node m offset => g.addNode m offset
  | .method m => (((g.addNode m returnOffset).1.addNode m exceptionOffset).1).addNode m entryOffset
  | .instruction source target i => g.addEdge source target (.instruction i)
  | .handler source target => g.addEdge source target .handler
  | .call source c => g.addEdge source ((g.table (c.target, entryOffset)).getD FlowGraph.unknownNode) (.call c)

def construct (additions : List Addition) : IndexedGraph :=
  additions.foldl (fun g a => (g.extend a).1) empty

/-- The table answers as a search through the nodes does. -/
def Faithful (g : IndexedGraph) : Prop := ∀ m offset, g.table (m, offset) = g.graph.findNode m offset

variable {g : IndexedGraph}

theorem addNode_eq (h : g.Faithful) (m : Method) (offset : Int) :
    ((g.addNode m offset).1.graph, (g.addNode m offset).2) = g.graph.addNode m offset ∧
      (g.addNode m offset).1.Faithful := by
  unfold addNode FlowGraph.addNode
  rw [h m offset]
  cases hfind : g.graph.findNode m offset with
  | some n => exact ⟨rfl, h⟩
  | none =>
    refine ⟨rfl, fun k o => ?_⟩
    have hk := h k o
    simp only [FlowGraph.findNode] at hk hfind ⊢
    rw [List.findIdx?_append, ← hk]
    by_cases hpoint : (k, o) = (m, offset)
    · obtain ⟨rfl, rfl⟩ := Prod.mk.inj hpoint
      simp [hk, hfind]
    · have hne : Node.point m offset ≠ .point k o := fun heq => hpoint (Node.ofPoint_injective heq.symm)
      simp [hpoint, hne]

theorem extend_eq (h : g.Faithful) (a : Addition) :
    ((g.extend a).1.graph, (g.extend a).2) = g.graph.extend a ∧ (g.extend a).1.Faithful := by
  cases a with
  | node m offset => exact addNode_eq h m offset
  | method m =>
    obtain ⟨hreturn, h⟩ := addNode_eq h m returnOffset
    obtain ⟨hexception, h⟩ := addNode_eq h m exceptionOffset
    obtain ⟨hentry, h⟩ := addNode_eq h m entryOffset
    refine ⟨?_, h⟩
    rw [FlowGraph.extend, FlowGraph.addMethod, ← hreturn, ← hexception, ← hentry]
    rfl
  | instruction source target i => exact ⟨rfl, h⟩
  | handler source target => exact ⟨rfl, h⟩
  | call source c =>
    refine ⟨?_, h⟩
    rw [extend, h]
    rfl

theorem construct_eq (additions : List Addition) :
    (construct additions).graph = .construct additions ∧ (construct additions).Faithful := by
  induction additions using List.reverseRecOn with
  | nil => exact ⟨rfl, fun _ _ => rfl⟩
  | append_singleton additions a ih =>
    obtain ⟨hgraph, hfaithful⟩ := extend_eq ih.2 a
    have hstep : construct (additions ++ [a]) = ((construct additions).extend a).1 := List.foldl_concat _ _ _ _
    rw [hstep, FlowGraph.construct_concat, ← ih.1, ← hgraph]
    exact ⟨rfl, hfaithful⟩

end IndexedGraph

namespace FlowGraph

/-- However a graph is built, a point is found exactly at the node that it is; the nodes correspond to the points that
were mentioned and the unknown node, which is the first one; later additions change nothing; every call leads to the
entry that its target had when the call was added, or to the unknown node; the lists of edges of a node fit together;
and a table of the points gives the same graph and the same answers. -/
theorem construct_consistent (additions : List Addition) :
    (∀ m offset n, (construct additions).findNode m offset = some n ↔
      (construct additions).node n = .point m offset) ∧
    Set.BijOn (construct additions).node {n | n < (construct additions).nodes.length}
      (insert .unknown (Node.ofPoint '' {q | q ∈ additions.flatMap Addition.points})) ∧
    (construct additions).nodes[unknownNode]? = some .unknown ∧
    (∀ later, (construct additions).nodes <+: (construct (additions ++ later)).nodes ∧
      (construct additions).edges <+: (construct (additions ++ later)).edges) ∧
    (∀ earlier source c later, additions = earlier ++ .call source c :: later →
      (construct additions).edges[(construct earlier).edges.length]? = some ⟨(construct earlier).edges.length, source,
        ((construct earlier).findNode c.target entryOffset).getD unknownNode, .call c⟩) ∧
    (∀ e ∈ (construct additions).edges, ∀ c, e.label = .call c →
      ∃ earlier later, additions = earlier ++ .call e.source c :: later ∧ (construct earlier).edges.length = e.id ∧
        e.target = ((construct earlier).findNode c.target entryOffset).getD unknownNode) ∧
    (∀ n, (construct additions).EdgeViews n) ∧
    (IndexedGraph.construct additions).graph = construct additions ∧
    ∀ m offset, (IndexedGraph.construct additions).table (m, offset) = (construct additions).findNode m offset := by
  have hpoints := hasPoints_construct additions
  have hmentioned : {q | q ∈ OrderedSet.ofList (additions.flatMap Addition.points)} =
      {q | q ∈ additions.flatMap Addition.points} := Set.ext fun q => OrderedSet.mem_ofList
  have hunknown : (construct additions).nodes[unknownNode]? = some .unknown := by
    rw [hpoints]
    rfl
  refine ⟨fun m offset n => ?_, hmentioned ▸ hpoints.bijOn_node, hunknown, prefix_construct additions, ?_, ?_,
    edgeViews (ascending_construct additions) (built_construct additions), (IndexedGraph.construct_eq additions).1, ?_⟩
  · rw [node_eq_point_iff]
    exact findNode_eq_some_iff hpoints.nodup
  · rintro earlier source c later rfl
    exact getElem?_edges_construct (e := ⟨_, source, (construct earlier).callTarget c.target, .call c⟩) rfl later
  · intro e he c hc
    obtain ⟨earlier, a, later, rfl, hedge⟩ := exists_addition he
    obtain ⟨rfl, htarget⟩ := edge?_call hedge hc
    exact ⟨earlier, later, rfl, (id_of_edge? hedge).symm, htarget⟩
  · intro m offset
    rw [(IndexedGraph.construct_eq additions).2, (IndexedGraph.construct_eq additions).1]

def host : Method := ⟨"Main", "host", ⟨[], none⟩, true⟩

def guest : Method := ⟨"Main", "guest", ⟨[], none⟩, true⟩

def visit : Call := ⟨host, entryOffset, guest, .static⟩

/-- The same call before and after its target is added. -/
def visits : List Addition := [.method host, .call 3 visit, .method guest, .call 3 visit]

/-- The first call stays unknown, although the entry of its target is found later on. -/
theorem construct_consistent_visits :
    (construct visits).node 6 = .point guest entryOffset ∧
      (construct visits).edges[0]? = some ⟨0, 3, unknownNode, .call visit⟩ ∧
      (construct visits).edges[1]? = some ⟨1, 3, 6, .call visit⟩ ∧
      (construct visits).callsUnknown 3 = true ∧ (construct visits).findNode guest entryOffset = some 6 := by
  obtain ⟨hfind, _, _, _, hcalls, _, hviews, _⟩ := construct_consistent visits
  have hguest : (construct visits).findNode guest entryOffset = some 6 := by decide
  exact ⟨(hfind guest entryOffset 6).1 hguest, hcalls [.method host] 3 visit [.method guest, .call 3 visit] rfl,
    hcalls [.method host, .call 3 visit, .method guest] 3 visit [] rfl, (hviews 3).callsUnknown.2 (by decide), hguest⟩

end FlowGraph

end BytecodeFlow
