import BytecodeFlow.Fixpoint.Abort
import BytecodeFlow.Fixpoint.Loop

/-!
# Transfer relations

A relation gives the successors of a state, or a fault. Relations without state of their own can be read
off a table and a list of rules. The relation that follows the edges of a flow graph has the state of the
relation that is asked about each edge. Run as an analysis, a relation keeps a journal of the states that
it was asked about.
-/
namespace BytecodeFlow

abbrev Relation (S P : Type) := S → P → Except Fault (List S)

/-- The successors of a state under a precision, from a relation that keeps state of its own, also when it fails. -/
abbrev StatefulRelation (S P τ : Type) := S → P → τ → Except Fault (List S) × τ

/-- The successors of a state along one edge; their location is set by whoever follows the edge. The
relation may keep state of its own. -/
abbrev EdgeRelation (S P : Type) (τ : Type := Unit) := S → Edge → P → τ → Except Fault (List S) × τ

def EdgeRelation.stateless {S P : Type} (f : S → Edge → P → Except Fault (List S)) : EdgeRelation S P :=
  fun s e p t => (f s e p, t)

/-- The next step, unless the first one has failed. -/
def andThen {α β τ : Type} (first : Except Fault α × τ) (next : α → τ → Except Fault β × τ) : Except Fault β × τ :=
  match first with
  | (.error e, t) => (.error e, t)
  | (.ok a, t) => next a t

/-- The results of all elements, one after the other, up to the first fault. -/
def gather {α β τ : Type} (f : α → τ → Except Fault (List β) × τ) : List α → τ → Except Fault (List β) × τ
  | [], t => (.ok [], t)
  | a :: l, t => andThen (f a t) fun bs t => andThen (gather f l t) fun cs t => (.ok (bs ++ cs), t)

/-- Follows every edge inside the method that leaves the node of the state. -/
def FlowGraph.relation {S P τ : Type} [Located S] (g : FlowGraph) (along : EdgeRelation S P τ) :
    StatefulRelation S P τ := fun s p =>
  gather (fun e t => ((along s e p t).1.map (List.map (relocate e.target)), (along s e p t).2))
    (g.leavingIntraprocedural (location s))

structure Rules (S : Type) where
  /-- The state whose successors cannot be computed. -/
  failing : Option S
  /-- Successors of single states; the first row for a state counts. -/
  table : List (S × List S)
  /-- For all other states, the successors under each rule that applies. -/
  rules : List (S → Option S)

def Rules.relation {S P : Type} [DecidableEq S] (r : Rules S) : Relation S P := fun s _ =>
  if r.failing = some s then .error (.contract (.state (.other "transfer failed")))
  else .ok ((r.table.lookup s).getD (r.rules.filterMap (· s)))

/-- The abort signal of a run, and the states whose successors were asked for, in order. -/
structure Journal (S P : Type) where
  signal : AbortSignal
  explored : List (S × P)

namespace Relation

variable {S P : Type}

def analysis (T : Relation S P) (O : Operators S P) : Analysis (Journal S P) S P where
  transfer s p := do
    modify fun j => { j with explored := j.explored ++ [(s, p)] }
    Effect.ofExcept (T s p)
  poll j :=
    let (fires, signal) := j.signal.poll
    (fires, { j with signal })
  operators := O

end Relation

def StatefulRelation.analysis {S P τ : Type} (T : StatefulRelation S P τ) (O : Operators S P) :
    Analysis (Journal S P × τ) S P where
  transfer s p := do
    modify fun (j, t) => ({ j with explored := j.explored ++ [(s, p)] }, t)
    let (successors, t) := T s p (← get).2
    modify fun (j, _) => (j, t)
    Effect.ofExcept successors
  poll := fun (j, t) =>
    let (fires, signal) := j.signal.poll
    (fires, { j with signal }, t)
  operators := O

namespace Relation

def describe : String := Text.quoted "ProgramLocationDependentForwardTransferRelation"

end Relation

end BytecodeFlow
