import BytecodeFlow.Fault

/-!
# Method descriptors

A descriptor such as `(IJLjava/lang/String;)V` lists the types of a method's parameters and of its
result. Types know how many slots their values take in a frame. Reading (`Descriptor.parse`) is the
inverse of writing (`Descriptor.text`).
-/
namespace BytecodeFlow

def slotsOfType (type : String) : Nat :=
  if type = "V" then 0 else if type = "J" ∨ type = "D" then 2 else 1

def isWideType (type : String) : Bool :=
  slotsOfType type == 2

inductive BaseType where
  | byte
  | char
  | double
  | float
  | int
  | long
  | short
  | boolean
  deriving DecidableEq, Repr

namespace BaseType

def letter : BaseType → Char
  | byte => 'B'
  | char => 'C'
  | double => 'D'
  | float => 'F'
  | int => 'I'
  | long => 'J'
  | short => 'S'
  | boolean => 'Z'

def ofLetter? : Char → Option BaseType
  | 'B' => some byte
  | 'C' => some char
  | 'D' => some double
  | 'F' => some float
  | 'I' => some int
  | 'J' => some long
  | 'S' => some short
  | 'Z' => some boolean
  | _ => none

@[simp] theorem ofLetter?_letter (b : BaseType) : ofLetter? b.letter = some b := by
  cases b <;> rfl

def slots : BaseType → Nat
  | double | long => 2
  | _ => 1

end BaseType

/-- The name of a class inside a descriptor: not empty, and free of the semicolon that ends it. -/
structure ClassName where
  chars : List Char
  nonempty : chars ≠ []
  plain : ';' ∉ chars
  deriving DecidableEq, Repr

def ClassName.ofChars? (cs : List Char) : Option ClassName :=
  if h : cs ≠ [] ∧ ';' ∉ cs then some ⟨cs, h.1, h.2⟩ else none

inductive FieldType where
  | base (type : BaseType)
  | object (name : ClassName)
  | array (element : FieldType)
  deriving DecidableEq, Repr

namespace FieldType

def chars : FieldType → List Char
  | base type => [type.letter]
  | object name => 'L' :: (name.chars ++ [';'])
  | array element => '[' :: element.chars

def text (t : FieldType) : String :=
  String.ofList t.chars

/-- References take one slot, whatever they refer to. -/
def slots : FieldType → Nat
  | base type => type.slots
  | _ => 1

def totalSlots : List FieldType → Nat
  | [] => 0
  | t :: ts => t.slots + totalSlots ts

/-- Reads one type and returns it with the text that follows. -/
def read : List Char → Except DescriptorFault (FieldType × List Char)
  | [] => .error .missingType
  | c :: r =>
    if c = '[' then
      match read r with
      | .ok (element, rest) => .ok (array element, rest)
      | .error e => .error e
    else if c = 'L' then
      match ClassName.ofChars? (r.takeWhile (· != ';')), r.dropWhile (· != ';') with
      | some name, _ :: rest => .ok (object name, rest)
      | _, _ => .error .openClass
    else
      match BaseType.ofLetter? c with
      | some type => .ok (base type, r)
      | none => .error .unexpectedCharacter

/-- A type uses up at least one character. -/
theorem read_length {s rest : List Char} {t : FieldType} (h : read s = .ok (t, rest)) :
    rest.length < s.length := by
  induction s generalizing t rest with
  | nil => simp [read] at h
  | cons c r ih =>
    unfold read at h
    split at h
    · split at h
      · rename_i element rest' hr
        simp only [Except.ok.injEq, Prod.mk.injEq] at h
        rw [← h.2]
        exact Nat.lt_succ_of_lt (ih hr)
      · simp at h
    · split at h
      · split at h
        · rename_i name d rest' _ hd
          simp only [Except.ok.injEq, Prod.mk.injEq] at h
          have hle := (List.dropWhile_suffix (l := r) (· != ';')).length_le
          rw [hd] at hle
          rw [← h.2]
          simp only [List.length_cons] at hle ⊢
          omega
        · simp at h
      · split at h
        · simp only [Except.ok.injEq, Prod.mk.injEq] at h
          rw [← h.2]
          exact Nat.lt_succ_self _
        · simp at h

end FieldType

/-- The parameter types and the result type of a method; a method without a result has none. -/
structure Descriptor where
  parameters : List FieldType
  result : Option FieldType
  deriving DecidableEq, Repr

namespace Descriptor

def resultChars : Option FieldType → List Char
  | none => ['V']
  | some t => t.chars

def chars (d : Descriptor) : List Char :=
  '(' :: (d.parameters.flatMap FieldType.chars ++ ')' :: resultChars d.result)

def text (d : Descriptor) : String :=
  String.ofList d.chars

def resultText (d : Descriptor) : String :=
  String.ofList (resultChars d.result)

def argumentSlots (d : Descriptor) : Nat :=
  FieldType.totalSlots d.parameters

def resultSlots (d : Descriptor) : Nat :=
  match d.result with
  | none => 0
  | some t => t.slots

/-- Reads types up to the closing parenthesis and returns them with the text after it. -/
def readParameters (s : List Char) : Except DescriptorFault (List FieldType × List Char) :=
  match s with
  | [] => .error .openParameters
  | c :: r =>
    if c = ')' then .ok ([], r)
    else
      match h : FieldType.read (c :: r) with
      | .error e => .error e
      | .ok (t, rest) =>
        have := FieldType.read_length h
        match readParameters rest with
        | .error e => .error e
        | .ok (ts, after) => .ok (t :: ts, after)
termination_by s.length
decreasing_by exact this

/-- Reads the result type, with which the text has to end. -/
def readResult (s : List Char) : Except DescriptorFault (Option FieldType) :=
  if s = ['V'] then .ok none
  else
    match FieldType.read s with
    | .error e => .error e
    | .ok (t, []) => .ok (some t)
    | .ok (_, _ :: _) => .error .trailingText

def readAll : List Char → Except DescriptorFault Descriptor
  | '(' :: s =>
    match readParameters s with
    | .error e => .error e
    | .ok (parameters, after) =>
      match readResult after with
      | .error e => .error e
      | .ok result => .ok ⟨parameters, result⟩
  | _ => .error .missingOpen

/-- Reads a descriptor; a violation carries the text. -/
def parse (s : String) : Except Violation Descriptor :=
  match readAll s.toList with
  | .ok d => .ok d
  | .error e => .error (.descriptor s e)

end Descriptor

end BytecodeFlow
