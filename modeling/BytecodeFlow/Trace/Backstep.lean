import BytecodeFlow.Notice
import BytecodeFlow.Summary.Analysis
import BytecodeFlow.Trace.Predecessors

/-!
# Backward steps

A traced state asks where the value at a site of some block came from. Inside a procedure the answer
follows from the instructions that lead to the node. At the return site of a call the trace steps into
every callee whose exit, once expanded, is covered by the state at the return site, and remembers the
caller. At the entry of a procedure it returns to the remembered caller or, without one, to every
cached caller that reduces to the entry state.

Only values above a threshold are traced.
-/
namespace BytecodeFlow

/-- A call that was stepped into from its return site, and where to go on at the callee's entry. -/
structure CallRecord (S : Type) where
  callee : Method
  /-- The block of the caller. -/
  caller : BlockId
  /-- The caller's state at the call site. -/
  state : S
  deriving DecidableEq, Repr

/-- A site in a block, with the calls that were stepped into, innermost first. -/
structure TracedState (S : Type) where
  site : Site
  block : BlockId
  calls : List (CallRecord S)
  deriving DecidableEq, Repr

def TracedState.text {S : Type} (t : TracedState S) : String :=
  Text.record "MemoryLocationState"
    [("location", t.site.text),
      ("call_stack", Text.list (t.calls.map fun c => c.callee.qualifiedName))]

/-- Traced states are only related to themselves. -/
instance {S : Type} [DecidableEq S] : Domain (TracedState S) where
  le a b := a == b

inductive CalleeStep (S : Type) where
  /-- The value was returned by the callee. -/
  | entered (t : TracedState S)
  /-- The callee did not produce the value. -/
  | unaffected
  /-- There is no result for the callee. -/
  | unavailable
  deriving DecidableEq, Repr

namespace CalleeStep

variable {S : Type}

def entered? : CalleeStep S → Option (TracedState S)
  | entered t => some t
  | _ => none

def isUnavailable : CalleeStep S → Bool
  | unavailable => true
  | _ => false

end CalleeStep

/-- Locations that calls reach from their arguments as a side effect. -/
abbrev ExtraReach := Call → MemoryLocation → Bool

/-- The locations listed for each call; a later list for the same call replaces an earlier one. -/
def ExtraReach.ofList (l : List (Call × List MemoryLocation)) : ExtraReach := fun call place =>
  ((l.reverse.lookup call).getD []).contains place

structure Backtracer (S P V : Type) where
  graph : FlowGraph
  cache : BlockCache S P
  reduce : S → NodeId → Call → Except Fault S
  expand : S → S → NodeId → Call → Except Fault S
  threshold : V
  extra : ExtraReach
  limits : Limits := .ideal

def Interprocedural.backtracer {S P V : Type} (A : Interprocedural S P) (cache : BlockCache S P)
    (threshold : V) (extra : ExtraReach) (limits : Limits := .ideal) : Backtracer S P V :=
  ⟨A.graph, cache, A.reduce, A.expand, threshold, extra, limits⟩

namespace Backtracer

variable {S P V : Type} [DecidableEq S] [DecidableEq P] [Located S] [Observable S V] [Domain S]
  [Domain V]

def above (B : Backtracer S P V) (s : S) (l : MemoryLocation) : Bool :=
  !Domain.le (l.valueIn s B.threshold) B.threshold

/-- The first state of a block at a node. A missing state is no fault: the traced analysis may not
have been completed. -/
def stateAt (B : Backtracer S P V) (id : BlockId) (n : NodeId) : Logged (Option S) :=
  match (B.cache.reachedOf id).firstAt? n with
  | some s => pure (some s)
  | none => do
    Logged.note (.missingState (B.graph.node n))
    return none

/-- The traced states for those of the locations at which the state holds a value above the
threshold. -/
def statesFor (B : Backtracer S P V) (places : List MemoryLocation) (s : S) (block : BlockId)
    (calls : List (CallRecord S)) : List (TracedState S) :=
  (places.eraseDups.filter (B.above s)).map fun l => ⟨⟨l, location s⟩, block, calls⟩

def outsideResult (m : Method) : MemoryLocation → Bool
  | .stack index => m.descriptor.resultSlots ≤ index
  | _ => false

/-- Tries to explain a value at the return site of a call by what the callee returned. -/
def calleeStep (B : Backtracer S P V) (p : P) (t : TracedState S) (caller returnSite : S) (e : Edge)
    (call : Call) : Logged (CalleeStep S) := do
  if t.calls.any (·.callee == call.target) then
    Logged.note (.recursiveStep call)
    return .unavailable
  let entry ← Logged.ofExcept (B.reduce caller e.target call)
  match B.cache.find? call.target entry p with
  | none =>
    Logged.note (.missingBlock call)
    return .unavailable
  | some id =>
    if outsideResult call.target t.site.place then return .unaffected
    match B.graph.returnExit? call.target with
    | none => return .unavailable
    | some exit =>
      match ← B.stateAt id exit with
      | none => return .unavailable
      | some returned =>
        if !B.above returned t.site.place then return .unaffected
        let expanded ← Logged.ofExcept (B.expand caller returned e.target call)
        if Domain.le (relocate (location returnSite) expanded) returnSite then
          return .entered ⟨⟨t.site.place, exit⟩, id, ⟨call.target, t.block, caller⟩ :: t.calls⟩
        else return .unaffected

def reaches (B : Backtracer S P V) (n : NodeId) (l : MemoryLocation) : Bool :=
  (FlowGraph.callsOf (B.graph.leaving n)).any fun c => B.extra c.2 l

/-- The locations before an edge on which the given one after it may depend. An invocation is passed
over if its callees explain the value. -/
def placesBefore (B : Backtracer S P V) (e : Edge) (explained : Bool) (l : MemoryLocation) :
    Except Fault (List MemoryLocation) :=
  match e.label with
  | .instruction i =>
    if i.isInvoke && explained then .ok [] else i.predecessors (B.reaches e.source l) l B.limits
  | .handler => .ok [l]
  | .call _ => .ok []

/-- The steps into the callees of a parent node. Local variables do not survive calls. -/
def calleeSteps (B : Backtracer S P V) (p : P) (t : TracedState S) (parent : NodeId) (s : S) :
    Logged (List (CalleeStep S)) :=
  match t.site.place with
  | .var _ => pure []
  | _ => do
    match ← B.stateAt t.block t.site.node with
    | none => return []
    | some current =>
      (B.graph.knownCalls parent).mapM fun c => B.calleeStep p t s current c.1 c.2

def edgeSteps (B : Backtracer S P V) (p : P) (t : TracedState S) (e : Edge) :
    Logged (List (TracedState S)) := do
  match ← B.stateAt t.block e.source with
  | none => return []
  | some parent =>
    let callees ← B.calleeSteps p t e.source parent
    let entered := callees.filterMap CalleeStep.entered?
    let explained :=
      !B.graph.callsUnknown e.source && !callees.any CalleeStep.isUnavailable && !entered.isEmpty
    let places ← Logged.ofExcept (B.placesBefore e explained t.site.place)
    return entered ++ B.statesFor places parent t.block t.calls

/-- The location in a caller, just before the call, that a location at a procedure's entry was
initialised from. Operand stacks start out empty. -/
def callerPlace? (B : Backtracer S P V) (t : TracedState S) : Option MemoryLocation :=
  match t.site.place with
  | .var index => ((B.graph.node t.site.node).method?.bind (·.argumentSlot? index)).map .stack
  | .static field => some (.static field)
  | .stack _ | .heap _ => none

/-- The step to a call site in a cached block of the caller, if its state there reduces to the state
at the traced entry. -/
def callerStep (B : Backtracer S P V) (place : MemoryLocation) (t : TracedState S) (called : S)
    (e : Edge) (call : Call) (b : BlockId × Block S) : Logged (List (TracedState S)) :=
  match b.2.reached.firstAt? e.source with
  | none => pure []
  | some caller => do
    let entry ← Logged.ofExcept (B.reduce caller t.site.node call)
    if entry = called then return B.statesFor [place] caller b.1 []
    else return []

def callerSteps (B : Backtracer S P V) (place : MemoryLocation) (t : TracedState S) :
    Logged (List (TracedState S)) := do
  match ← B.stateAt t.block t.site.node with
  | none => return []
  | some called =>
    let steps ← (B.graph.enteringCalls t.site.node).mapM fun c => do
      return (← (B.cache.blocksOf c.2.caller).mapM (B.callerStep place t called c.1 c.2)).flatten
    return steps.flatten

/-- The steps from a procedure's entry: to the remembered caller, or to every cached one. -/
def entrySteps (B : Backtracer S P V) (t : TracedState S) : Logged (List (TracedState S)) :=
  if B.graph.isEntryNode t.site.node then
    match B.callerPlace? t, t.calls with
    | none, _ => pure []
    | some place, c :: rest => pure (B.statesFor [place] c.state c.caller rest)
    | some place, [] => B.callerSteps place t
  else pure []

/-- The backward successors of a traced state. Heap fields cannot be traced. -/
def backtrace (B : Backtracer S P V) (p : P) (t : TracedState S) : Logged (List (TracedState S)) := do
  if t.site.place.isHeap then
    Logged.ofExcept (.error (.contract (.unsupportedLocation t.site.place.text)))
  else
    let inside ← (B.graph.enteringIntraprocedural t.site.node).mapM (B.edgeSteps p t)
    let outside ← B.entrySteps t
    return inside.flatten ++ outside

end Backtracer

end BytecodeFlow
