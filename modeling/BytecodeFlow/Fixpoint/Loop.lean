import BytecodeFlow.Fixpoint.Operators
import BytecodeFlow.Fixpoint.Reached
import BytecodeFlow.Fixpoint.Waitlist
import BytecodeFlow.Notice

/-!
# The fixpoint loop

An analysis explores pending states until none is left. Each iteration asks whether to abort, takes a
pending state, adjusts it, computes its successors, and incorporates them one after the other: a successor
is first merged with the comparable reached states, then added if it is not covered.

The transfer relation and the abort signal may keep state of their own (`σ`), which they also keep
when a successor computation fails. The loop takes a bound on its iterations; running out of it is an
outcome of its own.
-/
namespace BytecodeFlow

inductive Halt where
  | fault (f : Fault)
  /-- The bound on iterations was too small. -/
  | exhausted
  deriving DecidableEq, Repr

/-- A computation with state `σ` that keeps the state when it halts. -/
abbrev Effect (σ α : Type) := EStateM Halt σ α

namespace Effect

variable {σ α : Type}

/-- A result or a fault that does not touch the state. -/
def ofExcept : Except Fault α → Effect σ α
  | .ok a => pure a
  | .error f => throw (.fault f)

end Effect

structure Analysis (σ S P : Type) where
  transfer : S → P → Effect σ (List S)
  /-- Whether to abort now. -/
  poll : σ → Bool × σ
  operators : Operators S P

structure Search (R S : Type) where
  reached : R
  waiting : Waitlist S

inductive Outcome where
  /-- Nothing is pending. -/
  | completed
  | aborted
  | halted (h : Halt)
  deriving DecidableEq, Repr

namespace Search

variable {R S P : Type} [ReachedSet R S] [DecidableEq S]

def add (q : Search R S) (s : S) : Search R S :=
  ⟨ReachedSet.add q.reached s, q.waiting.add s⟩

def addAll (q : Search R S) (l : List S) : Search R S := l.foldl add q

/-- The comparable reached states that merging with a successor changes, each with its merged
state. -/
def replacements (O : Operators S P) (p : P) (q : Search R S) (c : S) : List (S × S) :=
  ((ReachedSet.comparable q.reached c).map fun r => (r, O.merge c r p)).filter fun m => m.2 ≠ m.1

/-- Puts merged states in the place of those that they were merged with, whether or not these were
still pending. -/
def replace (q : Search R S) (changes : List (S × S)) : Search R S :=
  let old := changes.map (·.1)
  addAll ⟨ReachedSet.removeAll q.reached old, q.waiting.removeAll old⟩ (changes.map (·.2))

def incorporate (O : Operators S P) (p : P) (q : Search R S) (c : S) : Search R S :=
  let q := q.replace (q.replacements O p c)
  if O.stop c (ReachedSet.comparable q.reached c) p then q else q.add c

def incorporateAll (O : Operators S P) (p : P) (q : Search R S) (l : List S) : Search R S :=
  l.foldl (incorporate O p) q

/-- The notices given when a run ends: one that is aborted says how far it came. -/
def notices (q : Search R S) : Outcome → List Notice
  | .aborted => [.aborted q.waiting.size (ReachedSet.size q.reached)]
  | _ => []

end Search

inductive Iteration (σ R S : Type) where
  | next (q : Search R S) (s : σ)
  | stop (o : Outcome) (q : Search R S) (s : σ)

namespace Analysis

variable {σ R S P : Type} [ReachedSet R S] [DecidableEq S]

def iterate (A : Analysis σ S P) (p : P) (q : Search R S) (s : σ) : Iteration σ R S :=
  match A.poll s with
  | (true, s) => .stop .aborted q s
  | (false, s) =>
    match q.waiting.pop? with
    | none => .stop .completed q s
    | some (state, waiting) =>
      let q : Search R S := ⟨q.reached, waiting⟩
      let (state, p) := A.operators.adjust state p (ReachedSet.comparable q.reached state)
      match A.transfer state p s with
      | .error h s => .stop (.halted h) q s
      | .ok successors s => .next (q.incorporateAll A.operators p successors) s

def run (A : Analysis σ S P) (p : P) : Nat → Search R S → σ → Outcome × Search R S × σ
  | 0, q, s => (.halted .exhausted, q, s)
  | fuel + 1, q, s =>
    match A.iterate p q s with
    | .stop o q s => (o, q, s)
    | .next q s => A.run p fuel q s

def describe : List String := ["Cpa", "CpaAlgorithm"].map Text.quoted

end Analysis

end BytecodeFlow
