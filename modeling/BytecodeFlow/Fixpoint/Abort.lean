import BytecodeFlow.Text.Layout

/-!
# Abort signals

A signal is polled once per iteration of a run. Nested runs poll the same signal, so the polls are
counted over its whole life.
-/
namespace BytecodeFlow

inductive AbortSignal where
  | never
  /-- Set and cleared from outside between runs. -/
  | controlled (flag : Bool)
  /-- Fires at the polls for which `fires` holds, counted from 0. -/
  | scheduled (fires : Nat → Bool) (polls : Nat)

namespace AbortSignal

def atPolls (polls : List Nat) : AbortSignal := .scheduled polls.contains 0

/-- Whether the signal fires now, and the signal after having been asked. -/
def poll : AbortSignal → Bool × AbortSignal
  | never => (false, never)
  | controlled flag => (flag, controlled flag)
  | scheduled fires polls => (fires polls, scheduled fires (polls + 1))

def set (flag : Bool) : AbortSignal → AbortSignal
  | controlled _ => controlled flag
  | s => s

def text? : AbortSignal → Option String
  | controlled flag =>
    some (Text.record "ControllableAbortOperator" [("abort", if flag then "true" else "false")])
  | _ => none

end AbortSignal

end BytecodeFlow
