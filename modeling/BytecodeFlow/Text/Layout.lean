import BytecodeFlow.Text.Blank

/-!
# One-line texts of values

Lists, sets, maps and records are written on one line with `", "` between the parts. Text inside a
value is quoted, with the characters that would end or blur the quotation escaped.
-/
namespace BytecodeFlow.Text

def hex (n : Nat) : String :=
  String.ofList (Nat.toDigits 16 n)

/-- Characters that are written by their number: control characters, and every blank but the space. -/
def isHidden (c : Char) : Bool :=
  c.toNat < 0x20 || (0x7f ≤ c.toNat && c.toNat < 0xa0) || (isBlank c && c != ' ')

def escape (c : Char) : String :=
  if c = '\x22' then "\\\""
  else if c = '\\' then "\\\\"
  else if c = '\n' then "\\n"
  else if c = '\t' then "\\t"
  else if c = '\r' then "\\r"
  else if c.toNat = 0 then "\\0"
  else if isHidden c then "\\u\x7b" ++ hex c.toNat ++ "\x7d"
  else c.toString

def quoted (s : String) : String :=
  "\"" ++ String.join (s.toList.map escape) ++ "\""

/-- `[a, b]` -/
def list (items : List String) : String :=
  "[" ++ ", ".intercalate items ++ "]"

/-- Items between braces, as for sets. -/
def braces (items : List String) : String :=
  "\x7b" ++ ", ".intercalate items ++ "\x7d"

def entry (key value : String) : String :=
  key ++ ": " ++ value

/-- Entries between braces, as for maps. -/
def map (entries : List (String × String)) : String :=
  braces (entries.map fun e => entry e.1 e.2)

def record (name : String) (fields : List (String × String)) : String :=
  name ++ " \x7b " ++ ", ".intercalate (fields.map fun e => entry e.1 e.2) ++ " \x7d"

def optional : Option Nat → String
  | none => "None"
  | some n => "Some(" ++ toString n ++ ")"

end BytecodeFlow.Text
