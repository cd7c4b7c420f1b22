import BytecodeFlow.Fixpoint.Waitlist

/-!
# Options of program analyses

Options are changed by what a list of arguments says about them. Matching the arguments with the declared options, and
splitting a line into arguments, are left to whoever is given for that. What is reported for an option replaces its
former value; if nothing is reported, it keeps that. Arguments from the first `--` on belong to somebody else and are
handed back. A failed reading changes nothing.
-/
namespace BytecodeFlow

structure Options where
  /-- How many procedure runs may be nested; unbounded if absent. -/
  maxDepth : Option Nat
  order : Order
  /-- Whether finished analyses are reported. -/
  statistics : Bool
  deriving DecidableEq, Repr

/-- Why arguments were not accepted. Asking for help or the version is reported in the same way. -/
inductive UsageError where
  | argumentConflict
  | valueValidation
  | invalidValue
  | unknownArgument
  | tooManyValues
  | displayHelp
  | displayVersion
  deriving DecidableEq, Repr

def UsageError.text : UsageError → String
  | argumentConflict => "ArgumentConflict"
  | valueValidation => "ValueValidation"
  | invalidValue => "InvalidValue"
  | unknownArgument => "UnknownArgument"
  | tooManyValues => "TooManyValues"
  | displayHelp => "DisplayHelp"
  | displayVersion => "DisplayVersion"

/-- What arguments say about each option. -/
structure Given where
  depth : Option Nat
  waitlist : Option String
  statistics : Bool
  deriving DecidableEq, Repr

abbrev Matcher := List String → Except UsageError Given

def endOfOptions : String := "--"

/-- Names other than `bfs` stand for depth first. -/
def Order.ofPolicy (name : String) : Order := if name = "bfs" then .breadthFirst else .depthFirst

namespace Options

def initial : Options := ⟨none, .depthFirst, false⟩

def describe (o : Options) : String :=
  Text.record "Options"
    [("max_call_stack_depth", Text.optional o.maxDepth), ("waitlist_policy", o.order.text),
      ("statistics", if o.statistics then "true" else "false")]

/-- Reads arguments into the options, and returns those after the end of the options. -/
def parse (m : Matcher) (arguments : List String) : EStateM UsageError Options (List String) :=
  match m (arguments.takeWhile (· != endOfOptions)) with
  | .error e => throw e
  | .ok given => do
    if let some n := given.depth then
      modify ({ · with maxDepth := some n })
    if let some policy := given.waitlist then
      modify ({ · with order := .ofPolicy policy })
    if given.statistics then
      modify ({ · with statistics := true })
    return (arguments.dropWhile (· != endOfOptions)).drop 1

def parseLine (m : Matcher) (split : String → Option (List String)) (line : String) :
    EStateM UsageError Options (List String) :=
  match split line with
  | none => throw .invalidValue
  | some arguments => parse m arguments

/-- The environment variable that holds a line of arguments. -/
def variableName : String := "CPA_FLAGS"

def ofEnvironment (m : Matcher) (split : String → Option (List String)) (flags : Option String) :
    Except UsageError Options :=
  match flags with
  | none => .ok initial
  | some line =>
    match parseLine m split line initial with
    | .ok _ o => .ok o
    | .error e _ => .error e

end Options

end BytecodeFlow
