import BytecodeFlow.Fixpoint.Reached

/-!
# Blocks and their cache

A block is the result of analysing one procedure from one entry state. Blocks are cached by
procedure, entry state and precision; the first block for a key stays. A block is named by its
procedure and its place among the blocks of that procedure, which never changes.
-/
namespace BytecodeFlow

structure Block (S : Type) where
  reached : LocatedStates S
  /-- The reached states at the return exit of the procedure. -/
  exits : List S
  deriving DecidableEq, Repr

def Block.text {S : Type} (write : S → String) (b : Block S) : String :=
  Text.record "BlockAbstraction" [("exit_states", Text.list (b.exits.map write))]

structure BlockId where
  method : Method
  index : Nat
  deriving DecidableEq, Repr

structure CacheEntry (S P : Type) where
  entry : S
  precision : P
  block : Block S
  deriving DecidableEq, Repr

/-- The blocks of each procedure in the order in which they were added, procedures in the order of
their first block. -/
structure BlockCache (S P : Type) where
  procedures : List (Method × List (CacheEntry S P))
  deriving DecidableEq, Repr

namespace BlockCache

variable {S P : Type}

def empty : BlockCache S P := ⟨[]⟩

def entriesOf (c : BlockCache S P) (m : Method) : List (CacheEntry S P) :=
  (c.procedures.lookup m).getD []

def block? (c : BlockCache S P) (id : BlockId) : Option (Block S) :=
  ((c.entriesOf id.method)[id.index]?).map (·.block)

def reachedOf (c : BlockCache S P) (id : BlockId) : LocatedStates S :=
  ((c.block? id).map (·.reached)).getD .empty

def blocksOf (c : BlockCache S P) (m : Method) : List (BlockId × Block S) :=
  (c.entriesOf m).zipIdx.map fun e => (⟨m, e.2⟩, e.1.block)

def methods (c : BlockCache S P) : List Method := c.procedures.map (·.1)

def toList (c : BlockCache S P) : List (BlockId × CacheEntry S P) :=
  c.procedures.flatMap fun g => g.2.zipIdx.map fun e => (⟨g.1, e.2⟩, e.1)

def size (c : BlockCache S P) : Nat := c.toList.length

def isEmpty (c : BlockCache S P) : Bool := c.size == 0

def position? (c : BlockCache S P) (id : BlockId) : Option Nat :=
  c.toList.findIdx? (·.1 == id)

def insertIn (m : Method) (e : CacheEntry S P) :
    List (Method × List (CacheEntry S P)) → List (Method × List (CacheEntry S P))
  | [] => [(m, [e])]
  | g :: rest => if g.1 = m then (g.1, g.2 ++ [e]) :: rest else g :: insertIn m e rest

def text (c : BlockCache S P) : String :=
  Text.map (c.procedures.map fun g => (g.1.qualifiedName, toString g.2.length))

variable [DecidableEq S] [DecidableEq P]

def find? (c : BlockCache S P) (m : Method) (entry : S) (precision : P) : Option BlockId :=
  ((c.entriesOf m).findIdx? fun e => e.entry = entry ∧ e.precision = precision).map (⟨m, ·⟩)

def get? (c : BlockCache S P) (m : Method) (entry : S) (precision : P) : Option (Block S) :=
  ((c.entriesOf m).find? fun e => e.entry = entry ∧ e.precision = precision).map (·.block)

/-- Caches a block, unless there is one for the key. -/
def insert (c : BlockCache S P) (m : Method) (entry : S) (precision : P) (b : Block S) :
    BlockCache S P :=
  if (c.get? m entry precision).isSome then c else ⟨insertIn m ⟨entry, precision, b⟩ c.procedures⟩

end BlockCache

end BytecodeFlow
