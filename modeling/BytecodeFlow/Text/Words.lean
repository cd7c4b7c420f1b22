import BytecodeFlow.Text.Blank

/-!
# Splitting a line into words

Words are separated by blanks. A word is a sequence of pieces written without a blank between them:
a plain run, text in single quotes (taken as it is), text in double quotes (where a backslash
protects a few characters) or a backslash with the character it protects. A quotation that is not
closed makes the whole line unreadable.
-/
namespace BytecodeFlow.Text

def isPlain (c : Char) : Bool :=
  !isBlank c && c != '\\' && c != '\x27' && c != '\x22'

/-- Text up to the closing single quote, and what follows the quote. -/
def singleQuoted : List Char → Option (List Char × List Char)
  | [] => none
  | c :: r =>
    if c = '\x27' then some ([], r)
    else (singleQuoted r).map fun p => (c :: p.1, p.2)

/-- The characters that a backslash protects inside double quotes. -/
def isProtected (c : Char) : Bool :=
  c == '$' || c == '\x60' || c == '\x22' || c == '\\' || c == '\n'

/-- Text up to the closing double quote, and what follows the quote. A backslash is dropped before a
protected character and kept before any other; it cannot stand before a line break. -/
def doubleQuoted : List Char → Option (List Char × List Char)
  | [] => none
  | c :: r =>
    if c = '\x22' then some ([], r)
    else if c = '\\' then
      match r with
      | [] => none
      | d :: r =>
        if d = '\n' then none
        else (doubleQuoted r).map fun p =>
          (if isProtected d then d :: p.1 else c :: d :: p.1, p.2)
    else (doubleQuoted r).map fun p => (c :: p.1, p.2)

/-- The character protected by a backslash outside quotes. A backslash before a line break or at the
end stands for itself. -/
def protectedChar : List Char → List Char × List Char
  | [] => (['\\'], [])
  | c :: r => if c = '\n' then (['\\'], c :: r) else ([c], r)

/-- The next piece of a word, for a nonempty input that does not start with a blank. -/
def piece : List Char → Option (List Char × List Char)
  | [] => none
  | c :: r =>
    if c = '\x27' then singleQuoted r
    else if c = '\x22' then doubleQuoted r
    else if c = '\\' then some (protectedChar r)
    else some (c :: r.takeWhile isPlain, r.dropWhile isPlain)

theorem singleQuoted_length {s : List Char} {p : List Char × List Char}
    (h : singleQuoted s = some p) : p.2.length < s.length := by
  induction s generalizing p with
  | nil => simp [singleQuoted] at h
  | cons c r ih =>
    by_cases hc : c = '\x27'
    · simp [singleQuoted, hc] at h
      simp [← h]
    · simp only [singleQuoted, hc, if_false, Option.map_eq_some_iff] at h
      obtain ⟨q, hq, rfl⟩ := h
      have := ih hq
      exact Nat.lt_succ_of_lt this

theorem doubleQuoted_length {s : List Char} {p : List Char × List Char}
    (h : doubleQuoted s = some p) : p.2.length < s.length := by
  fun_induction doubleQuoted s generalizing p with
  | case1 => simp at h
  | case2 => simp only [Option.some.injEq] at h; simp [← h]
  | case3 => simp at h
  | case4 => simp at h
  | case5 d r _ _ ih =>
    obtain ⟨q, hq, rfl⟩ := Option.map_eq_some_iff.1 h
    have := ih hq
    simp only [List.length_cons]
    omega
  | case6 c r _ _ ih =>
    obtain ⟨q, hq, rfl⟩ := Option.map_eq_some_iff.1 h
    have := ih hq
    exact Nat.lt_succ_of_lt this

theorem protectedChar_length (r : List Char) : (protectedChar r).2.length ≤ r.length := by
  cases r with
  | nil => simp [protectedChar]
  | cons c r => by_cases hc : c = '\n' <;> simp [protectedChar, hc]

/-- A piece uses up at least one character. -/
theorem piece_length {s : List Char} {p : List Char × List Char} (h : piece s = some p) :
    p.2.length < s.length := by
  cases s with
  | nil => simp [piece] at h
  | cons c r =>
    simp only [piece] at h
    split at h
    · exact Nat.lt_succ_of_lt (singleQuoted_length h)
    · split at h
      · exact Nat.lt_succ_of_lt (doubleQuoted_length h)
      · split at h
        · simp only [Option.some.injEq] at h
          subst h
          exact Nat.lt_succ_of_le (protectedChar_length r)
        · simp only [Option.some.injEq] at h
          subst h
          exact Nat.lt_succ_of_le (List.dropWhile_suffix _).length_le

/-- Splits the rest of a line; `word` is the part of the current word read so far, if one has been
started. Blanks before a word are skipped, and the first blank after a piece ends the word. -/
def splitFrom (word : Option (List Char)) (s : List Char) : Option (List (List Char)) :=
  match s with
  | [] => some word.toList
  | c :: r =>
    if isBlank c then
      (splitFrom none r).map (word.toList ++ ·)
    else
      match h : piece (c :: r) with
      | none => none
      | some p =>
        have := piece_length h
        splitFrom (some (word.getD [] ++ p.1)) p.2
termination_by s.length
decreasing_by
  · exact Nat.lt_succ_self _
  · exact this

/-- The words of a line, or nothing if a quotation is not closed. -/
def words (line : String) : Option (List String) :=
  (splitFrom none line.toList).map (List.map String.ofList)

end BytecodeFlow.Text
