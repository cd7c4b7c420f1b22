import BytecodeFlow.Fixpoint.Relation
import BytecodeFlow.Notice
import BytecodeFlow.Options.Basic
import BytecodeFlow.Summary.Block

/-!
# Analysing procedures by blocks

A program is analysed procedure by procedure. At an invocation whose target has code the caller's
state is reduced to an entry state of the target, the block for that entry state is looked up or
computed by a nested run, and the caller's states after the call are expanded from the exits of the
block. A call is treated like an ordinary instruction if its target is being analysed already, if runs
are nested too deeply, or if the nested run was aborted; and so is an invocation that may reach code
that is not available.

Runs nest at most as deep as there are methods that can be entered, since a method is not entered
again while it is being analysed. That number bounds the recursion of `procedure`; the length of each
single run is bounded by `fuel`.
-/
namespace BytecodeFlow

structure Interprocedural (S P : Type) (τ : Type := Unit) where
  graph : FlowGraph
  relation : EdgeRelation S P τ
  operators : Operators S P
  /-- The entry state of a callee, from the caller's state, the entry node and the call. -/
  reduce : S → NodeId → Call → Except Fault S
  /-- The caller's state after a call, from its state before, the callee's exit state, the entry node
  and the call. -/
  expand : S → S → NodeId → Call → Except Fault S
  options : Options

structure Session (S P : Type) (τ : Type := Unit) where
  cache : BlockCache S P
  /-- The procedures that are being analysed, outermost first. -/
  callStack : List Method
  signal : AbortSignal
  statistics : Statistics
  log : List Notice
  /-- The state of the edge relation. -/
  relation : τ

namespace Session

variable {S P τ : Type}

def startWith (signal : AbortSignal) (relation : τ) : Session S P τ := ⟨.empty, [], signal, .zero, [], relation⟩

def start (signal : AbortSignal) : Session S P := startWith signal ()

def noteAll (l : List Notice) (s : Session S P τ) : Session S P τ := { s with log := s.log ++ l }

def note (n : Notice) (s : Session S P τ) : Session S P τ := s.noteAll [n]

def countFallback (s : Session S P τ) : Session S P τ :=
  { s with statistics := { s.statistics with fallbacks := s.statistics.fallbacks + 1 } }

def countHit (s : Session S P τ) : Session S P τ :=
  { s with statistics := { s.statistics with cacheHits := s.statistics.cacheHits + 1 } }

def countNested (s : Session S P τ) : Session S P τ :=
  { s with statistics := { s.statistics with nestedRuns := s.statistics.nestedRuns + 1 } }

def enter (m : Method) (s : Session S P τ) : Session S P τ :=
  let callStack := s.callStack ++ [m]
  { s with callStack, log := s.log ++ [.entered callStack] }

def leave (s : Session S P τ) : Session S P τ := { s with callStack := s.callStack.dropLast }

def poll (s : Session S P τ) : Bool × Session S P τ :=
  let (fires, signal) := s.signal.poll
  (fires, { s with signal })

end Session

structure ProcedureRun (S : Type) where
  block : Block S
  aborted : Bool

namespace Interprocedural

variable {S P τ : Type} [DecidableEq S] [DecidableEq P] [Located S]

abbrev Runner (S P : Type) (τ : Type := Unit) := Method → S → P → Effect (Session S P τ) (ProcedureRun S)

def fallBack (call : Call) (reason : Fallback) : Effect (Session S P τ) (Option (List S)) := do
  modify fun σ => (σ.note (.notEntered call reason)).countFallback
  return none

def store (m : Method) (entry : S) (p : P) (b : Block S) : Effect (Session S P τ) (Block S) := do
  modify fun σ => { σ with cache := σ.cache.insert m entry p b }
  return ((← get).cache.get? m entry p).getD b

def expandAll (A : Interprocedural S P τ) (s : S) (e : Edge) (call : Call) (exits : List S) :
    Effect (Session S P τ) (Option (List S)) := do
  return some (← exits.mapM fun x => Effect.ofExcept (A.expand s x e.target call))

/-- Whether no further run may be nested. -/
def depthReached (A : Interprocedural S P τ) (depth : Nat) : Bool :=
  match A.options.maxDepth with
  | none => false
  | some limit => limit ≤ depth

/-- The states after a call, or nothing if the call has to be treated like an instruction. -/
def resolve (A : Interprocedural S P τ) (nested : Runner S P τ) (s : S) (p : P) (e : Edge) (call : Call) :
    Effect (Session S P τ) (Option (List S)) := do
  let σ ← get
  if call.target ∈ σ.callStack then fallBack call .recursion
  else if A.depthReached σ.callStack.length then fallBack call .depthLimit
  else
    let entry ← Effect.ofExcept (A.reduce s e.target call)
    match σ.cache.get? call.target entry p with
    | some block =>
      modify Session.countHit
      A.expandAll s e call block.exits
    | none =>
      let run ← nested call.target entry p
      modify Session.countNested
      if run.aborted then fallBack call .abortedCallee
      else
        let block ← store call.target entry p run.block
        A.expandAll s e call block.exits

def ask (A : Interprocedural S P τ) (s : S) (p : P) (e : Edge) : Effect (Session S P τ) (List S) := do
  let (successors, t) := A.relation s e p (← get).relation
  modify ({ · with relation := t })
  Effect.ofExcept successors

/-- The successors of a state along an edge inside its method, still at the node of the state. Those
found by entering callees come before those of the edge itself. -/
def follow (A : Interprocedural S P τ) (nested : Runner S P τ) (s : S) (p : P) (e : Edge) :
    Effect (Session S P τ) (List S) := do
  if e.label.isInvoke then
    let calls := A.graph.knownCalls (location s)
    let apart := calls.isEmpty || A.graph.callsUnknown (location s)
    if apart then modify Session.countFallback
    let results ← calls.mapM fun c => A.resolve nested s p c.1 c.2
    let entered := results.flatMap (·.getD [])
    if apart || results.any Option.isNone then
      return entered ++ (← A.ask s p e)
    else return entered
  else A.ask s p e

def transfer (A : Interprocedural S P τ) (nested : Runner S P τ) (s : S) (p : P) :
    Effect (Session S P τ) (List S) := do
  let parts ← (A.graph.leavingIntraprocedural (location s)).mapM fun e => do
    return (← A.follow nested s p e).map (relocate e.target)
  return parts.flatten

def analysis (A : Interprocedural S P τ) (nested : Runner S P τ) : Analysis (Session S P τ) S P where
  transfer := A.transfer nested
  poll := Session.poll
  operators := A.operators

def block (A : Interprocedural S P τ) (m : Method) (reached : LocatedStates S) : Block S :=
  ⟨reached, match A.graph.returnExit? m with
    | some exit => reached.statesAt exit
    | none => []⟩

def runWith (A : Interprocedural S P τ) (fuel : Nat) (nested : Runner S P τ) : Runner S P τ :=
  fun m entry p σ =>
    let start : Search (LocatedStates S) S := Search.add ⟨.empty, .empty A.options.order⟩ entry
    let (outcome, q, σ) := (A.analysis nested).run p fuel start (σ.enter m)
    let σ := σ.leave.noteAll (q.notices outcome)
    match outcome with
    | .completed => .ok ⟨A.block m q.reached, false⟩ σ
    | .aborted => .ok ⟨A.block m q.reached, true⟩ σ
    | .halted h => .error h σ

/-- Runs a procedure with runs nested at most `room` deep. -/
def procedure (A : Interprocedural S P τ) (fuel : Nat) : Nat → Runner S P τ
  | 0 => fun _ _ _ => throw .exhausted
  | room + 1 => A.runWith fuel (A.procedure fuel room)

/-- How deep runs can nest. -/
def room (A : Interprocedural S P τ) : Nat := A.graph.entered.length

def successors (A : Interprocedural S P τ) (fuel : Nat) (s : S) (p : P) :
    Effect (Session S P τ) (List S) :=
  A.transfer (A.procedure fuel A.room) s p

/-- The result of analysing a procedure; an aborted run has no place in the cache. -/
structure Analyzed (S : Type) where
  block : Block S
  id : Option BlockId

/-- Analyses a procedure from a state at its entry. The result is cached like that of a callee, unless
the run was aborted. -/
def analyze (A : Interprocedural S P τ) (fuel : Nat) (m : Method) (s : S) (p : P) :
    Effect (Session S P τ) (Analyzed S) := do
  match A.graph.entry? m with
  | none => throw (.fault (.contract (.missingProcedure m.qualifiedName)))
  | some entry =>
    if location s ≠ entry then
      throw (.fault (.contract (.state (.misplacedEntry m.qualifiedName (location s) entry))))
    let run ← A.procedure fuel A.room m s p
    let result ←
      if run.aborted then pure ⟨run.block, none⟩
      else do
        let block ← store m s p run.block
        pure ⟨block, (← get).cache.find? m s p⟩
    if A.options.statistics then
      modify fun σ => σ.note (.analyzed m σ.statistics σ.cache.size)
    return result

def describe : String := Text.quoted "BamCpa"

end Interprocedural

end BytecodeFlow
