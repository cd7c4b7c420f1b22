import BytecodeFlow.Trace.Backstep
import BytecodeFlow.Trace.Witness

/-!
# Tracing a value back

All backward steps from a site, taken by the fixpoint loop: states are never merged, and only dropped
when the very same state has been reached. The sources found by each step are recorded in a witness
graph, which is handed over when the trace ends. A trace that halts hands over nothing, and what it
has recorded is kept.
-/
namespace BytecodeFlow

structure TraceSession where
  witness : Witness
  signal : AbortSignal
  log : List Notice

namespace TraceSession

def start (signal : AbortSignal) : TraceSession := ⟨.empty, signal, []⟩

def noteAll (l : List Notice) (s : TraceSession) : TraceSession := { s with log := s.log ++ l }

def poll (s : TraceSession) : Bool × TraceSession :=
  let (fires, signal) := s.signal.poll
  (fires, { s with signal })

end TraceSession

structure BackwardTrace (S : Type) where
  /-- The sites from which the trace started. -/
  roots : List Site
  reached : OrderedSet (TracedState S)
  witness : Witness
  aborted : Bool

namespace BackwardTrace

variable {S : Type}

def linearTraces (t : BackwardTrace S) : List (List Site) :=
  t.roots.flatMap t.witness.linearTraces

def text (t : BackwardTrace S) : String :=
  Text.record "BackwardTrace"
    [("roots", Text.list (t.roots.map Site.text)), ("witness", t.witness.text),
      ("aborted", if t.aborted then "true" else "false")]

end BackwardTrace

namespace Backtracer

variable {S P V : Type} [DecidableEq S] [DecidableEq P] [Located S] [Observable S V] [Domain S]
  [Domain V]

def recordStep (B : Backtracer S P V) (t : TracedState S) (p : P) :
    Effect TraceSession (List (TracedState S)) := fun σ =>
  match B.backtrace p t with
  | ⟨.error f, notices⟩ => .error (.fault f) (σ.noteAll notices)
  | ⟨.ok ts, notices⟩ =>
    .ok ts { σ.noteAll notices with witness := σ.witness.addSources t.site (ts.map (·.site)) }

def analysis (B : Backtracer S P V) : Analysis TraceSession (TracedState S) P where
  transfer := B.recordStep
  poll := TraceSession.poll
  operators := ⟨Operators.mergeSep, Operators.stopContained, Operators.adjustNone⟩

/-- A traced state for every block of the node's procedure that holds a value above the threshold
there. -/
def initial (B : Backtracer S P V) (place : MemoryLocation) (n : NodeId) : List (TracedState S) :=
  match (B.graph.node n).method? with
  | none => []
  | some m =>
    ((B.cache.blocksOf m).filter fun b => (b.2.reached.statesAt n).any (B.above · place)).map
      fun b => ⟨⟨place, n⟩, b.1, []⟩

/-- Traces the value at a site back through every block that reaches it. -/
def trace (B : Backtracer S P V) (fuel : Nat) (place : MemoryLocation) (n : NodeId) (p : P) :
    Effect TraceSession (BackwardTrace S) := fun σ =>
  let initial := B.initial place n
  let start : Search (OrderedSet (TracedState S)) (TracedState S) :=
    Search.addAll ⟨.empty, .empty .depthFirst⟩ initial
  let roots := (initial.map (·.site)).eraseDups
  let (outcome, q, σ) := B.analysis.run p fuel start σ
  let σ := σ.noteAll (q.notices outcome)
  match outcome with
  | .completed => .ok ⟨roots, q.reached, σ.witness, false⟩ { σ with witness := .empty }
  | .aborted => .ok ⟨roots, q.reached, σ.witness, true⟩ { σ with witness := .empty }
  | .halted h => .error h σ

def describe : List String :=
  ["MemoryLocationTransferRelation", "MemoryLocationCpa"].map Text.quoted

end Backtracer

end BytecodeFlow
