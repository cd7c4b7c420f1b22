import BytecodeFlow.Options.Basic

/-!
# Matching arguments with options

`--max_call_stack_depth N` and `--waitlist dfs|bfs` take a value, which follows as a word of its own or
after an equals sign; `--statistics` takes none. A value in a word of its own is checked when the next
known option comes or the arguments end; a word that is not understood is reported before that. Each
option may be given once. For `--waitlist` a value is declared that is reported if none is given.
-/
namespace BytecodeFlow

/-- The options that take a value. -/
inductive ValueFlag where
  | depth
  | waitlist
  deriving DecidableEq, Repr

/-- The options that take none. -/
inductive Switch where
  | statistics
  | help
  | version
  deriving DecidableEq, Repr

inductive Flag where
  | value (f : ValueFlag)
  | switch (s : Switch)
  deriving DecidableEq, Repr

def Flag.ofName? (name : String) : Option Flag :=
  if name = "max_call_stack_depth" then some (.value .depth)
  else if name = "waitlist" then some (.value .waitlist)
  else if name = "statistics" then some (.switch .statistics)
  else if name = "help" then some (.switch .help)
  else if name = "version" then some (.switch .version)
  else none

/-- The flags that can be written with one letter. -/
def Switch.ofLetter? (c : Char) : Option Switch :=
  if c = 'h' then some .help else if c = 'V' then some .version else none

/-- How a word among the arguments is taken. -/
inductive Argument where
  /-- A long option, with the value after its equals sign. -/
  | long (name : String) (attached : Option String)
  /-- One-letter flags in one word. -/
  | short (letters : List Char)
  | plain (text : String)
  deriving DecidableEq, Repr

def Argument.ofLong (cs : List Char) : Argument :=
  .long (String.ofList (cs.takeWhile (· != '='))) <|
    match cs.dropWhile (· != '=') with
    | [] => none
    | _ :: value => some (String.ofList value)

/-- A lone dash is an ordinary word. -/
def Argument.ofWord (w : String) : Argument :=
  match w.toList with
  | '-' :: '-' :: cs => .ofLong cs
  | '-' :: c :: cs => .short (c :: cs)
  | _ => .plain w

/-- The largest depth that can be given: the largest number of 64 bits. -/
def maxDepthLimit : Nat := 18446744073709551615

/-- Decimal digits with an optional plus sign. -/
def readDepth? (s : String) : Option Nat :=
  let digits := match s.toList with
    | '+' :: cs => cs
    | cs => cs
  if digits.isEmpty || !digits.all Char.isDigit then none
  else
    let n := digits.foldl (fun n c => 10 * n + (c.toNat - '0'.toNat)) 0
    if n ≤ maxDepthLimit then some n else none

def readPolicy? (s : String) : Option String := if s = "dfs" ∨ s = "bfs" then some s else none

/-- The policy that is reported if none is given. -/
def declaredPolicy : String := "dfs"

namespace Given

def none : Given := ⟨.none, .none, false⟩

/-- Takes the value of an option: it must be there, be the first one, and be well formed. -/
def accept (g : Given) (f : ValueFlag) (value : Option String) : Except UsageError Given :=
  match value, f with
  | .none, _ => .error .invalidValue
  | some v, .depth =>
    if g.depth.isSome then .error .argumentConflict
    else
      match readDepth? v with
      | .none => .error .valueValidation
      | some n => .ok { g with depth := some n }
  | some v, .waitlist =>
    if g.waitlist.isSome then .error .argumentConflict
    else
      match readPolicy? v with
      | .none => .error .invalidValue
      | some policy => .ok { g with waitlist := some policy }

def switch (g : Given) : Switch → Except UsageError Given
  | .statistics => if g.statistics then .error .argumentConflict else .ok { g with statistics := true }
  | .help => .error .displayHelp
  | .version => .error .displayVersion

end Given

/-- An option whose value has not been checked yet: the value may still be missing. -/
structure Pending where
  flag : ValueFlag
  value : Option String
  deriving DecidableEq, Repr

def Given.settle (g : Given) : Option Pending → Except UsageError Given
  | .none => .ok g
  | some p => g.accept p.flag p.value

/-- Takes one-letter flags; the first one that is known ends the reading. -/
def readLetters (g : Given) (pending : Option Pending) : List Char → Except UsageError Given
  | [] => .ok g
  | c :: cs =>
    match Switch.ofLetter? c with
    | none => .error .unknownArgument
    | some s =>
      match g.settle pending with
      | .error e => .error e
      | .ok g =>
        match g.switch s with
        | .error e => .error e
        | .ok g => readLetters g none cs

def readArgument (g : Given) (pending : Option Pending) :
    Argument → Except UsageError (Given × Option Pending)
  | .long name attached =>
    match Flag.ofName? name, attached with
    | none, _ => .error .unknownArgument
    | some (.switch _), some _ => .error .tooManyValues
    | some (.switch s), none => do
      let g ← g.settle pending
      return (← g.switch s, none)
    | some (.value f), some v => do
      let g ← g.settle pending
      return (← g.accept f (some v), none)
    | some (.value f), none => do
      let g ← g.settle pending
      return (g, some ⟨f, none⟩)
  | .short letters => do
    return (← readLetters g pending letters, none)
  | .plain text =>
    match pending with
    | some ⟨f, none⟩ => .ok (g, some ⟨f, some text⟩)
    | _ => .error .unknownArgument

def readArguments (g : Given) (pending : Option Pending) : List String → Except UsageError Given
  | [] => g.settle pending
  | w :: ws =>
    match readArgument g pending (.ofWord w) with
    | .error e => .error e
    | .ok (g, pending) => readArguments g pending ws

def Given.withDefaults (g : Given) : Given := { g with waitlist := some (g.waitlist.getD declaredPolicy) }

/-- Reports what the arguments say, and the declared values of what they do not mention. -/
def matchArguments : Matcher := fun arguments => (readArguments .none none arguments).map Given.withDefaults

end BytecodeFlow
