import BytecodeFlow.FlowGraph.Basic

/-!
# Notices

What an analysis reports about its course: calls that it could not follow, results that it did not
find, runs that were cut short. Notices never influence results.
-/
namespace BytecodeFlow

inductive Level where
  /-- The course of an analysis step by step; not for the log. -/
  | trace
  | debug
  | info
  deriving DecidableEq, Repr

def Level.text : Level → String
  | trace => "TRACE"
  | debug => "DEBUG"
  | info => "INFO"

/-- Why a call with a known target is treated like an ordinary instruction. -/
inductive Fallback where
  | recursion
  | depthLimit
  | abortedCallee
  deriving DecidableEq, Repr

def Fallback.text : Fallback → String
  | recursion => "recursion"
  | depthLimit => "maximum call stack depth reached"
  | abortedCallee => "nested analysis aborted"

structure Statistics where
  /-- Procedure runs started because no block was cached for their entry state. -/
  nestedRuns : Nat
  /-- Calls resolved with a cached block. -/
  cacheHits : Nat
  /-- Invocations treated like ordinary instructions. -/
  fallbacks : Nat
  deriving DecidableEq, Repr

namespace Statistics

def zero : Statistics := ⟨0, 0, 0⟩

def describe (s : Statistics) : String :=
  Text.record "BamStatistics"
    [("nested_analyses", toString s.nestedRuns), ("cache_hits", toString s.cacheHits),
      ("intraprocedural_fallbacks", toString s.fallbacks)]

end Statistics

inductive Notice where
  /-- A run of the last procedure of the call stack begins. -/
  | entered (callStack : List Method)
  /-- A call edge was added for a method without code. -/
  | unresolvedCall (target : Method)
  /-- A run was cut short. -/
  | aborted (pending reached : Nat)
  /-- A call edge has no effect of its own. -/
  | ignoredEdge (edge : EdgeId)
  | notEntered (call : Call) (reason : Fallback)
  | analyzed (method : Method) (statistics : Statistics) (cached : Nat)
  | recursiveStep (call : Call)
  | missingBlock (call : Call)
  | missingState (node : Node)
  | traceCutOff (length : Nat)
  deriving DecidableEq, Repr

namespace Notice

def level : Notice → Level
  | entered _ => .trace
  | analyzed .. | missingState _ => .info
  | _ => .debug

def message : Notice → String
  | entered callStack => s!"entering {Text.list (callStack.map Method.qualifiedName)}"
  | unresolvedCall target =>
    s!"call to {target.qualifiedName} has no code, linking it to the unknown node"
  | aborted pending reached =>
    s!"analysis aborted with {pending} pending states and {reached} reached states"
  | ignoredEdge edge => s!"ignoring interprocedural edge EdgeIndex({edge})"
  | notEntered call reason => s!"analyzing {call.text} intraprocedurally: {reason.text}"
  | analyzed method statistics cached =>
    s!"{method.qualifiedName}: {statistics.nestedRuns} nested analyses, " ++
      s!"{statistics.cacheHits} cache hits, {statistics.fallbacks} intraprocedural fallbacks, " ++
      s!"{cached} cached blocks"
  | recursiveStep call => s!"not stepping into recursive call {call.text}"
  | missingBlock call => s!"no block abstraction for {call.text}"
  | missingState node => s!"missing state in the cache for {node.text}"
  | traceCutOff length => s!"trace cut off at {length} locations"

def line (n : Notice) : String :=
  s!"{n.level.text} {n.message}"

def lines (l : List Notice) : List String :=
  (l.filter (·.level != .trace)).map line

end Notice

/-- A result or a fault, with the notices given on the way. The result does not depend on them. -/
structure Logged (α : Type) where
  result : Except Fault α
  notices : List Notice

namespace Logged

def bind {α β : Type} (x : Logged α) (f : α → Logged β) : Logged β :=
  match x.result with
  | .error e => ⟨.error e, x.notices⟩
  | .ok a => ⟨(f a).result, x.notices ++ (f a).notices⟩

instance : Monad Logged where
  pure a := ⟨.ok a, []⟩
  bind := bind

def note (n : Notice) : Logged Unit := ⟨.ok (), [n]⟩

def ofExcept {α : Type} (x : Except Fault α) : Logged α := ⟨x, []⟩

variable {α β : Type}

@[simp] theorem result_pure (a : α) : (pure a : Logged α).result = .ok a := rfl

@[simp] theorem result_note (n : Notice) : (note n).result = .ok () := rfl

@[simp] theorem result_ofExcept (x : Except Fault α) : (ofExcept x).result = x := rfl

/-- Results compose without looking at the notices. -/
@[simp] theorem result_bind (x : Logged α) (f : α → Logged β) :
    (x >>= f).result = x.result.bind fun a => (f a).result := by
  rcases x with ⟨_ | a, notices⟩ <;> rfl

end Logged

end BytecodeFlow
