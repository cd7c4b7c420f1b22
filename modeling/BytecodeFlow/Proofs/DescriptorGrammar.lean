import BytecodeFlow.Method.Descriptor
import Mathlib.Data.List.TakeWhile

/-! # The grammar of descriptors

A text is a descriptor if it consists of a parenthesised sequence of written types and a written result. Reading
accepts exactly these texts and takes them apart in the only possible way: a written type is no proper beginning of
another one, and none begins with the closing parenthesis.
-/
namespace BytecodeFlow

/-! ### Written types -/

def baseLetters : List Char := ['B', 'C', 'D', 'F', 'I', 'J', 'S', 'Z']

/-- A written type that is no array: the letter of a base type, or the name of a class between `L` and a semicolon. -/
inductive WrittenElement : List Char → Prop where
  | base {c : Char} : c ∈ baseLetters → WrittenElement [c]
  | object {name : List Char} : name ≠ [] → ';' ∉ name → WrittenElement ('L' :: (name ++ [';']))

/-- A written type: any number of brackets with the type of the elements behind them. -/
def WrittenType (cs : List Char) : Prop :=
  ∃ n element, WrittenElement element ∧ cs = List.replicate n '[' ++ element

theorem BaseType.letter_mem (b : BaseType) : b.letter ∈ baseLetters := by
  cases b <;> decide

theorem BaseType.letter_of_ofLetter? {c : Char} {b : BaseType} (h : ofLetter? c = some b) : b.letter = c := by
  unfold ofLetter? at h
  split at h <;> cases h <;> rfl

theorem BaseType.exists_letter {c : Char} (h : c ∈ baseLetters) : ∃ b : BaseType, b.letter = c := by
  simp only [baseLetters, List.mem_cons, List.not_mem_nil, or_false] at h
  rcases h with rfl | rfl | rfl | rfl | rfl | rfl | rfl | rfl
  · exact ⟨.byte, rfl⟩
  · exact ⟨.char, rfl⟩
  · exact ⟨.double, rfl⟩
  · exact ⟨.float, rfl⟩
  · exact ⟨.int, rfl⟩
  · exact ⟨.long, rfl⟩
  · exact ⟨.short, rfl⟩
  · exact ⟨.boolean, rfl⟩

theorem ClassName.ofChars?_eq_some {cs : List Char} {name : ClassName} :
    ofChars? cs = some name ↔ cs = name.chars := by
  unfold ofChars?
  constructor
  · intro h
    split at h
    · cases h
      rfl
    · cases h
  · rintro rfl
    exact dif_pos ⟨name.nonempty, name.plain⟩

namespace FieldType

theorem writtenType_chars (t : FieldType) : WrittenType t.chars := by
  induction t with
  | base type => exact ⟨0, _, .base type.letter_mem, rfl⟩
  | object name => exact ⟨0, _, .object name.nonempty name.plain, rfl⟩
  | array element ih =>
    obtain ⟨n, body, hbody, heq⟩ := ih
    exact ⟨n + 1, body, hbody, congrArg ('[' :: ·) heq⟩

theorem exists_chars {cs : List Char} (h : WrittenType cs) : ∃ t : FieldType, t.chars = cs := by
  obtain ⟨n, element, helement, rfl⟩ := h
  induction n with
  | zero =>
    cases helement with
    | base hc =>
      obtain ⟨b, rfl⟩ := BaseType.exists_letter hc
      exact ⟨.base b, rfl⟩
    | object hne hplain => exact ⟨.object ⟨_, hne, hplain⟩, rfl⟩
  | succ n ih =>
    obtain ⟨t, ht⟩ := ih
    exact ⟨.array t, congrArg ('[' :: ·) ht⟩

/-- A written type does not begin with a closing parenthesis. -/
theorem chars_eq_cons (t : FieldType) : ∃ c r, t.chars = c :: r ∧ c ≠ ')' := by
  cases t with
  | base type => exact ⟨_, _, rfl, by cases type <;> decide⟩
  | object name => exact ⟨_, _, rfl, by decide⟩
  | array element => exact ⟨_, _, rfl, by decide⟩

theorem chars_ne_void (t : FieldType) : t.chars ≠ ['V'] := by
  cases t with
  | base type => cases type <;> decide
  | object name => simp [chars]
  | array element => simp [chars]

/-! ### Reading types -/

theorem bne_of_plain {cs : List Char} (h : ';' ∉ cs) : ∀ c ∈ cs, (c != ';') = true := by
  intro c hc
  rw [bne_iff_ne]
  rintro rfl
  exact h hc

/-- The semicolon ends the name of a class. -/
theorem read_object {name : List Char} (hplain : ';' ∉ name) (rest : List Char) :
    read ('L' :: (name ++ ';' :: rest)) =
      match ClassName.ofChars? name with
      | some name => .ok (object name, rest)
      | none => .error .openClass := by
  have hinside := bne_of_plain hplain
  have htake : (name ++ ';' :: rest).takeWhile (· != ';') = name := by
    rw [List.takeWhile_append_of_pos hinside]
    simp
  have hdrop : (name ++ ';' :: rest).dropWhile (· != ';') = ';' :: rest := by
    rw [List.dropWhile_append_of_pos hinside]
    simp
  rw [read, if_neg (by decide), if_pos rfl, htake, hdrop]
  cases ClassName.ofChars? name <;> rfl

theorem read_unclosed {r : List Char} (h : ';' ∉ r) : read ('L' :: r) = .error .openClass := by
  have hdrop : r.dropWhile (· != ';') = [] := List.dropWhile_eq_nil_iff.2 (bne_of_plain h)
  rw [read, if_neg (by decide), if_pos rfl, hdrop]
  cases ClassName.ofChars? (r.takeWhile (· != ';')) <;> rfl

/-- A written type is read as a whole, whatever follows it. -/
theorem read_chars (t : FieldType) (rest : List Char) : read (t.chars ++ rest) = .ok (t, rest) := by
  induction t with
  | base type => cases type <;> rfl
  | object name =>
    rw [chars, List.cons_append, List.append_assoc, List.singleton_append, read_object name.plain,
      ClassName.ofChars?_eq_some.2 rfl]
  | array element ih => simp [chars, read, ih]

/-- What has been read stands in front of the rest. -/
theorem eq_of_read {s rest : List Char} {t : FieldType} (h : read s = .ok (t, rest)) : s = t.chars ++ rest := by
  induction s generalizing t with
  | nil => cases h
  | cons c r ih =>
    unfold read at h
    split at h
    · rename_i hc
      split at h
      · rename_i element rest' hr
        cases h
        rw [hc, ih hr]
        rfl
      · cases h
    · split at h
      · rename_i hc
        split at h
        · rename_i name d rest' hname hdrop
          cases h
          have hsplit := List.takeWhile_append_dropWhile (p := (· != ';')) (l := r)
          rw [ClassName.ofChars?_eq_some.1 hname, hdrop] at hsplit
          -- what the search for the end leaves begins with the semicolon
          have hhead := List.head?_dropWhile_not (· != ';') r
          rw [hdrop] at hhead
          have hd : d = ';' := by simpa using hhead
          rw [hc, ← hsplit, hd]
          simp [chars]
        · cases h
      · split at h
        · rename_i type htype
          cases h
          rw [← BaseType.letter_of_ofLetter? htype]
          rfl
        · cases h

end FieldType

namespace Descriptor

/-! ### Reading descriptors -/

theorem readParameters_of_read {s rest : List Char} {t : FieldType} (hclose : s.head? ≠ some ')')
    (h : FieldType.read s = .ok (t, rest)) :
    readParameters s = (readParameters rest).map fun r => (t :: r.1, r.2) := by
  cases s with
  | nil => cases h
  | cons c r =>
    rw [readParameters, if_neg (by simpa using hclose)]
    split
    · rename_i e herror
      rw [h] at herror
      cases herror
    · rename_i t' rest' hread
      rw [h] at hread
      cases hread
      cases readParameters rest <;> rfl

/-- Types are read up to the first closing parenthesis outside a name. -/
theorem readParameters_eq_ok {s after : List Char} {ts : List FieldType} :
    readParameters s = .ok (ts, after) ↔ s = ts.flatMap FieldType.chars ++ ')' :: after := by
  constructor
  · intro h
    fun_induction readParameters s generalizing ts after with
    | case1 => cases h
    | case2 r => cases h; rfl
    | case3 => cases h
    | case4 => cases h
    | case5 c r hc t rest hread _ ts' after' hrest ih =>
      cases h
      rw [FieldType.eq_of_read hread, ih hrest]
      simp
  · rintro rfl
    induction ts with
    | nil => simp [readParameters]
    | cons t ts ih =>
      obtain ⟨c, r, hchars, hc⟩ := t.chars_eq_cons
      rw [List.flatMap_cons, List.append_assoc, readParameters_of_read _ (FieldType.read_chars t _), ih]
      · rfl
      · simpa [hchars] using hc

theorem readResult_eq_ok {s : List Char} {result : Option FieldType} :
    readResult s = .ok result ↔ s = resultChars result := by
  unfold readResult
  constructor
  · intro h
    split at h
    · rename_i hs
      cases h
      exact hs
    · split at h
      · cases h
      · rename_i t hread
        cases h
        simpa [resultChars] using FieldType.eq_of_read hread
      · cases h
  · rintro rfl
    cases result with
    | none => rfl
    | some t =>
      have hread := FieldType.read_chars t []
      rw [List.append_nil] at hread
      rw [resultChars, if_neg t.chars_ne_void, hread]

theorem readAll_of_not_open {s : List Char} (h : s.head? ≠ some '(') : readAll s = .error .missingOpen := by
  unfold readAll
  split
  · exact absurd rfl h
  · rfl

theorem readAll_eq_ok {s : List Char} {d : Descriptor} : readAll s = .ok d ↔ s = d.chars := by
  constructor
  · intro h
    unfold readAll at h
    split at h
    · split at h
      · cases h
      · rename_i parameters after hparameters
        split at h
        · cases h
        · rename_i result hresult
          cases h
          rw [readParameters_eq_ok.1 hparameters, readResult_eq_ok.1 hresult]
          rfl
    · cases h
  · rintro rfl
    simp only [chars, readAll, readParameters_eq_ok.2 rfl, readResult_eq_ok.2 rfl]

theorem parse_eq_ok_iff_readAll {s : String} {d : Descriptor} : parse s = .ok d ↔ readAll s.toList = .ok d := by
  rw [parse]
  cases readAll s.toList <;> simp

/-- A descriptor is read from its text, and from no other. -/
theorem parse_eq_ok {s : String} {d : Descriptor} : parse s = .ok d ↔ s = d.text := by
  rw [parse_eq_ok_iff_readAll, readAll_eq_ok, text, ← String.toList_inj, String.toList_ofList]

theorem parse_eq_error {s : String} {f : Violation} (h : parse s = .error f) :
    ∃ cause, f = .descriptor s cause ∧ readAll s.toList = .error cause := by
  unfold parse at h
  split at h
  · cases h
  · rename_i cause hcause
    cases h
    exact ⟨cause, rfl, hcause⟩

/-! ### Written descriptors -/

/-- The text consists of the written types in parentheses and of the written result. -/
structure Composed (s : String) (types : List String) (result : String) : Prop where
  text : s = "(" ++ String.join types ++ ")" ++ result
  types : ∀ type ∈ types, WrittenType type.toList
  result : result = "V" ∨ WrittenType result.toList

theorem text_eq (d : Descriptor) :
    d.text = "(" ++ String.join (d.parameters.map FieldType.text) ++ ")" ++ d.resultText := by
  rw [← String.toList_inj]
  simp [text, chars, resultText, String.toList_join, List.flatMap_map, FieldType.text]

theorem composed_text (d : Descriptor) : Composed d.text (d.parameters.map FieldType.text) d.resultText where
  text := d.text_eq
  types := by
    intro type htype
    obtain ⟨t, -, rfl⟩ := List.mem_map.1 htype
    rw [FieldType.text, String.toList_ofList]
    exact t.writtenType_chars
  result := by
    obtain ⟨parameters, _ | t⟩ := d
    · exact .inl rfl
    · right
      rw [resultText, String.toList_ofList]
      exact t.writtenType_chars

/-- Written types are the texts of a list of types. -/
theorem exists_parameters {types : List String} (h : ∀ type ∈ types, WrittenType type.toList) :
    ∃ parameters : List FieldType, types = parameters.map FieldType.text := by
  induction types with
  | nil => exact ⟨[], rfl⟩
  | cons type types ih =>
    obtain ⟨t, ht⟩ := FieldType.exists_chars (h type List.mem_cons_self)
    obtain ⟨ts, hts⟩ := ih fun type' htype => h type' (List.mem_cons_of_mem _ htype)
    refine ⟨t :: ts, ?_⟩
    rw [hts, List.map_cons, FieldType.text, ht, String.ofList_toList]

theorem exists_result {result : String} (h : result = "V" ∨ WrittenType result.toList) :
    ∃ type : Option FieldType, result = String.ofList (resultChars type) := by
  rcases h with rfl | h
  · exact ⟨none, rfl⟩
  · obtain ⟨t, ht⟩ := FieldType.exists_chars h
    exact ⟨some t, by rw [resultChars, ht, String.ofList_toList]⟩

/-- The composed texts are those of the descriptors, taken apart at the types. -/
theorem composed_iff {s : String} {types : List String} {result : String} :
    Composed s types result ↔
      ∃ d : Descriptor, s = d.text ∧ types = d.parameters.map FieldType.text ∧ result = d.resultText := by
  constructor
  · intro h
    obtain ⟨parameters, rfl⟩ := exists_parameters h.types
    obtain ⟨type, rfl⟩ := exists_result h.result
    exact ⟨⟨parameters, type⟩, h.text.trans (text_eq ⟨parameters, type⟩).symm, rfl, rfl⟩
  · rintro ⟨d, rfl, rfl, rfl⟩
    exact d.composed_text

theorem composed_iff_parse {s : String} {types : List String} {result : String} :
    Composed s types result ↔
      ∃ d, parse s = .ok d ∧ types = d.parameters.map FieldType.text ∧ result = d.resultText := by
  simp only [composed_iff, parse_eq_ok]

end Descriptor

end BytecodeFlow
