import BytecodeFlow.Proofs.DescriptorGrammar

/-! # Reading descriptors by bytes

A descriptor can be read off the bytes of its encoding, by positions that move from one type to the next, with the
types cut out of the text between two positions. Every type takes at least one byte, so such a scan ends. The letters
and marks of the grammar are encoded in one byte each, which occurs in the encoding of no other character. Hence all
positions lie between characters, the cuts succeed, and both ways of reading give the same answer, whatever characters
the names of classes are made of.
-/
namespace BytecodeFlow

/-! ### The encoding -/

def encoded (cs : List Char) : List UInt8 :=
  cs.flatMap String.utf8EncodeChar

@[simp] theorem encoded_nil : encoded [] = [] := rfl

theorem encoded_cons (c : Char) (cs : List Char) : encoded (c :: cs) = String.utf8EncodeChar c ++ encoded cs := rfl

@[simp] theorem encoded_append (cs ds : List Char) : encoded (cs ++ ds) = encoded cs ++ encoded ds :=
  List.flatMap_append

theorem encodeChar_ne_nil (c : Char) : String.utf8EncodeChar c ≠ [] := by
  rw [← List.length_pos_iff, String.length_utf8EncodeChar]
  exact c.utf8Size_pos

@[simp] theorem encoded_eq_nil {cs : List Char} : encoded cs = [] ↔ cs = [] := by
  cases cs with
  | nil => simp
  | cons c r => simp [encoded_cons]

theorem encodeChar_ascii {c : Char} (h : c.toNat < 128) : String.utf8EncodeChar c = [c.toUInt8] := by
  apply String.utf8EncodeChar_eq_singleton
  rw [Char.utf8Size_eq_one_iff, UInt32.le_iff_toNat_le]
  exact Nat.le_of_lt_succ h

theorem length_encoded_cons {c : Char} (h : c.toNat < 128) (r : List Char) :
    (encoded (c :: r)).length = (encoded r).length + 1 := by
  rw [encoded_cons, encodeChar_ascii h]
  rfl

/-- The encoding of a character that takes more than one byte has the high bit set in each of them. -/
theorem high_of_mem_encodeChar {c : Char} (h : 128 ≤ c.toNat) {b : UInt8} (hb : b ∈ String.utf8EncodeChar c) :
    128 ≤ b.toNat := by
  have hor (x m : UInt8) (hm : 128 ≤ m.toNat) : 128 ≤ (x ||| m).toNat := by
    rw [UInt8.toNat_or]
    exact Nat.le_trans hm Nat.right_le_or
  have hone : c.utf8Size ≠ 1 := by
    rw [Ne, Char.utf8Size_eq_one_iff, UInt32.le_iff_toNat_le]
    exact Nat.not_le.2 h
  rcases Char.utf8Size_eq c with hsize | hsize | hsize | hsize
  · exact absurd hsize hone
  · rw [String.utf8EncodeChar_eq_cons_cons hsize] at hb
    simp only [List.mem_cons, List.not_mem_nil, or_false] at hb
    rcases hb with rfl | rfl <;> exact hor _ _ (by decide)
  · rw [String.utf8EncodeChar_eq_cons_cons_cons hsize] at hb
    simp only [List.mem_cons, List.not_mem_nil, or_false] at hb
    rcases hb with rfl | rfl | rfl <;> exact hor _ _ (by decide)
  · rw [String.utf8EncodeChar_eq_cons_cons_cons_cons hsize] at hb
    simp only [List.mem_cons, List.not_mem_nil, or_false] at hb
    rcases hb with rfl | rfl | rfl | rfl <;> exact hor _ _ (by decide)

theorem toNat_toUInt8 {c : Char} (h : c.toNat < 128) : c.toUInt8.toNat = c.toNat := by
  rw [Char.toUInt8, UInt32.toNat_toUInt8]
  exact Nat.mod_eq_of_lt (Nat.lt_trans h (by decide))

/-- A byte below the high bit occurs in the encoding of one character only. -/
theorem toUInt8_mem_encodeChar {a c : Char} (ha : a.toNat < 128) : a.toUInt8 ∈ String.utf8EncodeChar c ↔ c = a := by
  constructor
  · intro hmem
    by_cases hc : c.toNat < 128
    · rw [encodeChar_ascii hc, List.mem_singleton] at hmem
      apply Char.toNat_inj.1
      rw [← toNat_toUInt8 hc, ← toNat_toUInt8 ha, hmem]
    · have hhigh := high_of_mem_encodeChar (Nat.le_of_not_lt hc) hmem
      rw [toNat_toUInt8 ha] at hhigh
      omega
  · rintro rfl
    simp [encodeChar_ascii ha]

theorem toUInt8_mem_encoded {a : Char} (ha : a.toNat < 128) {cs : List Char} : a.toUInt8 ∈ encoded cs ↔ a ∈ cs := by
  simp [encoded, toUInt8_mem_encodeChar ha]

/-- The first byte of a text tells whether the text begins with a given character of one byte. -/
theorem encoded_cons_eq (c : Char) (r : List Char) :
    ∃ b bs, encoded (c :: r) = b :: bs ∧ (∀ a : Char, a.toNat < 128 → (b = a.toUInt8 ↔ c = a)) ∧
      (c.toNat < 128 → bs = encoded r) := by
  obtain ⟨b, bs, hencode⟩ := List.exists_cons_of_ne_nil (encodeChar_ne_nil c)
  refine ⟨b, bs ++ encoded r, by rw [encoded_cons, hencode]; rfl, ?_, ?_⟩
  · intro a ha
    constructor
    · rintro rfl
      rw [← toUInt8_mem_encodeChar ha, hencode]
      exact List.mem_cons_self
    · rintro rfl
      rw [encodeChar_ascii ha] at hencode
      cases hencode
      rfl
  · intro hc
    rw [encodeChar_ascii hc] at hencode
    cases hencode
    rfl

/-! ### Cutting texts -/

def textBytes (s : String) : List UInt8 :=
  s.toByteArray.data.toList

theorem textBytes_eq (s : String) : textBytes s = encoded s.toList := by
  rw [textBytes, ← String.utf8Encode_toList, List.utf8Encode, List.toList_data_toByteArray]
  rfl

theorem utf8ByteSize_eq (s : String) : s.utf8ByteSize = (encoded s.toList).length := by
  rw [← textBytes_eq, textBytes, Array.length_toList]
  rfl

/-- The part of a text between two positions, unless one of them lies inside a character. -/
def cut? (s : String) (start stop : Nat) : Option String :=
  if h : start ≤ stop ∧ String.Pos.Raw.IsValid s ⟨start⟩ ∧ String.Pos.Raw.IsValid s ⟨stop⟩ then
    some (String.extract (s := s) ⟨⟨start⟩, h.2.1⟩ ⟨⟨stop⟩, h.2.2⟩)
  else none

theorem cut?_append (before piece after : String) :
    cut? (before ++ piece ++ after) before.utf8ByteSize (before ++ piece).utf8ByteSize = some piece := by
  have hle : before.utf8ByteSize ≤ (before ++ piece).utf8ByteSize := by
    rw [String.utf8ByteSize_append]
    exact Nat.le_add_right _ _
  have hstart : String.Pos.Raw.IsValid (before ++ piece ++ after) ⟨before.utf8ByteSize⟩ :=
    String.Pos.Raw.isValid_iff_exists_append.2 ⟨before, piece ++ after, String.append_assoc, rfl⟩
  have hstop : String.Pos.Raw.IsValid (before ++ piece ++ after) ⟨(before ++ piece).utf8ByteSize⟩ :=
    String.Pos.Raw.isValid_iff_exists_append.2 ⟨before ++ piece, after, rfl, rfl⟩
  rw [cut?, dif_pos ⟨hle, hstart, hstop⟩, Option.some.injEq, ← String.toByteArray_inj, String.toByteArray_extract]
  simp only [String.toByteArray_append, String.utf8ByteSize]
  rw [ByteArray.extract_append_size_left, ByteArray.extract_append_eq_right rfl ByteArray.size_append]

/-- The position lies between two characters of the text, and the rest follows it. -/
def Remains (s : String) (position : Nat) (rest : List Char) : Prop :=
  ∃ before, s.toList = before ++ rest ∧ position = (encoded before).length

namespace Remains

variable {s : String} {position : Nat} {piece rest : List Char}

theorem start (s : String) : Remains s 0 s.toList :=
  ⟨[], rfl, rfl⟩

theorem drop (h : Remains s position rest) : (textBytes s).drop position = encoded rest := by
  obtain ⟨before, hs, rfl⟩ := h
  rw [textBytes_eq, hs, encoded_append, List.drop_left]

theorem get? (h : Remains s position rest) : (textBytes s)[position]? = (encoded rest).head? := by
  rw [← h.drop, List.head?_drop]

theorem length (h : Remains s position rest) : (textBytes s).length = position + (encoded rest).length := by
  obtain ⟨before, hs, rfl⟩ := h
  rw [textBytes_eq, hs, encoded_append, List.length_append]

theorem advance (h : Remains s position (piece ++ rest)) : Remains s (position + (encoded piece).length) rest := by
  obtain ⟨before, hs, rfl⟩ := h
  exact ⟨before ++ piece, by rw [hs, List.append_assoc], by rw [encoded_append, List.length_append]⟩

theorem cut (h : Remains s position (piece ++ rest)) :
    cut? s position (position + (encoded piece).length) = some (String.ofList piece) := by
  obtain ⟨before, hs, rfl⟩ := h
  have hcut := cut?_append (String.ofList before) (String.ofList piece) (String.ofList rest)
  have htext : String.ofList before ++ String.ofList piece ++ String.ofList rest = s := by
    rw [← String.toList_inj, hs]
    simp
  rw [htext] at hcut
  simpa [utf8ByteSize_eq] using hcut

end Remains

/-! ### Scanning -/

/-- What a scan fails with: a cut inside a character, or the fault of a text that is no descriptor. -/
inductive ScanFault where
  | insideCharacter
  | malformed (cause : DescriptorFault)
  deriving DecidableEq, Repr

namespace Descriptor

/-- The number of bytes that the type takes with which the bytes begin. -/
def typeSize : List UInt8 → Except DescriptorFault Nat
  | [] => .error .missingType
  | b :: bs =>
    if b = '['.toUInt8 then (typeSize bs).map (· + 1)
    else if b = 'L'.toUInt8 then
      match bs.findIdx? (· == ';'.toUInt8) with
      | none | some 0 => .error .openClass
      | some (n + 1) => .ok (n + 3)
    else if b ∈ baseLetters.map Char.toUInt8 then .ok 1
    else .error .unexpectedCharacter

/-- A type takes at least one byte, and no more than there are. -/
theorem typeSize_bounds {bytes : List UInt8} {size : Nat} (h : typeSize bytes = .ok size) :
    0 < size ∧ size ≤ bytes.length := by
  induction bytes generalizing size with
  | nil => cases h
  | cons b bs ih =>
    unfold typeSize at h
    split at h
    · cases hsize : typeSize bs with
      | error e => rw [hsize] at h; cases h
      | ok n =>
        rw [hsize] at h
        cases h
        exact ⟨Nat.succ_pos n, Nat.succ_le_succ (ih hsize).2⟩
    · split at h
      · split at h
        · cases h
        · cases h
        · rename_i n hfind
          cases h
          have hlt := (List.findIdx?_eq_some_iff_findIdx_eq.1 hfind).1
          exact ⟨Nat.succ_pos _, Nat.succ_le_succ hlt⟩
      · split at h
        · cases h
          exact ⟨Nat.one_pos, Nat.succ_le_succ (Nat.zero_le _)⟩
        · cases h

/-- Cuts out types from the position to the closing parenthesis; returns them with the position behind it. -/
def scanParameters (s : String) (position : Nat) : Except ScanFault (List String × Nat) :=
  match (textBytes s)[position]? with
  | none => .error (.malformed .openParameters)
  | some b =>
    if b = ')'.toUInt8 then .ok ([], position + 1)
    else
      match h : typeSize ((textBytes s).drop position) with
      | .error cause => .error (.malformed cause)
      | .ok size =>
        have := typeSize_bounds h
        match cut? s position (position + size) with
        | none => .error .insideCharacter
        | some type => (scanParameters s (position + size)).map fun r => (type :: r.1, r.2)
termination_by (textBytes s).length - position
decreasing_by
  rw [List.length_drop] at this
  omega

/-- Cuts out the result, which has to end with the text. -/
def scanResult (s : String) (position : Nat) : Except ScanFault String :=
  if (textBytes s)[position]? = some 'V'.toUInt8 ∧ position + 1 = (textBytes s).length then .ok "V"
  else
    match typeSize ((textBytes s).drop position) with
    | .error cause => .error (.malformed cause)
    | .ok size =>
      if position + size = (textBytes s).length then
        match cut? s position (position + size) with
        | none => .error .insideCharacter
        | some type => .ok type
      else .error (.malformed .trailingText)

/-- The types of the parameters and of the result as parts of the text, found by their positions. -/
def scan (s : String) : Except ScanFault (List String × String) :=
  if (textBytes s)[0]? = some '('.toUInt8 then
    match scanParameters s 1 with
    | .error f => .error f
    | .ok (types, position) => (scanResult s position).map (types, ·)
  else .error (.malformed .missingOpen)

/-! ### Scanning agrees with reading -/

theorem mem_baseLetters_iff {c : Char} : c ∈ baseLetters ↔ BaseType.ofLetter? c ≠ none := by
  constructor
  · intro h
    obtain ⟨b, rfl⟩ := BaseType.exists_letter h
    simp
  · intro h
    obtain ⟨b, hb⟩ := Option.ne_none_iff_exists'.1 h
    rw [← BaseType.letter_of_ofLetter? hb]
    exact b.letter_mem

theorem ascii_of_mem_baseLetters {c : Char} (h : c ∈ baseLetters) : c.toNat < 128 := by
  obtain ⟨b, rfl⟩ := BaseType.exists_letter h
  cases b <;> decide

/-- Outside the semicolons no byte is that of a semicolon. -/
theorem findIdx?_eq_none {name : List Char} (hplain : ';' ∉ name) :
    (encoded name).findIdx? (· == ';'.toUInt8) = none := by
  rw [List.findIdx?_eq_none_iff]
  intro b hb
  rw [beq_eq_false_iff_ne]
  rintro rfl
  exact hplain ((toUInt8_mem_encoded (by decide)).1 hb)

theorem findIdx?_semicolon {name : List Char} (hplain : ';' ∉ name) (rest : List Char) :
    (encoded (name ++ ';' :: rest)).findIdx? (· == ';'.toUInt8) = some (encoded name).length := by
  rw [encoded_append, List.findIdx?_append, findIdx?_eq_none hplain, encoded_cons, encodeChar_ascii (by decide)]
  simp [List.findIdx?_cons]

/-- The size of a class type is found at the first byte of a semicolon. -/
theorem typeSize_object (r : List Char) :
    typeSize ('L'.toUInt8 :: encoded r) =
      (FieldType.read ('L' :: r)).map fun t => (encoded t.1.chars).length := by
  rw [typeSize, if_neg (by decide), if_pos rfl]
  by_cases hmem : ';' ∈ r
  · obtain ⟨name, rest, rfl, hplain⟩ := List.eq_append_cons_of_mem hmem
    rw [findIdx?_semicolon hplain, FieldType.read_object hplain]
    cases hname : ClassName.ofChars? name with
    | none =>
      have hnil : name = [] := by
        by_contra hne
        exact absurd hname (by simp [ClassName.ofChars?, hne, hplain])
      rw [hnil]
      rfl
    | some className =>
      have hchars := ClassName.ofChars?_eq_some.1 hname
      obtain ⟨n, hn⟩ := Nat.exists_eq_succ_of_ne_zero (n := (encoded name).length)
        (by simpa [hchars] using className.nonempty)
      have hlength : (encoded (FieldType.object className).chars).length = n + 3 := by
        rw [FieldType.chars, length_encoded_cons (by decide), encoded_append, List.length_append, ← hchars, hn,
          length_encoded_cons (by decide)]
        rfl
      rw [hn]
      exact congrArg Except.ok hlength.symm
  · rw [findIdx?_eq_none hmem, FieldType.read_unclosed hmem]
    rfl

/-- The bytes of a text give the size of the type with which the text begins, or the same fault. -/
theorem typeSize_encoded (cs : List Char) :
    typeSize (encoded cs) = (FieldType.read cs).map fun r => (encoded r.1.chars).length := by
  induction cs with
  | nil => rfl
  | cons c r ih =>
    obtain ⟨b, bs, heq, hb, hbs⟩ := encoded_cons_eq c r
    by_cases hopen : c = '['
    · subst hopen
      rw [heq, (hb '[' (by decide)).2 rfl, hbs (by decide), typeSize, if_pos rfl, ih, FieldType.read, if_pos rfl]
      cases FieldType.read r with
      | error e => rfl
      | ok t => exact congrArg Except.ok (length_encoded_cons (by decide) t.1.chars).symm
    · by_cases hclass : c = 'L'
      · subst hclass
        rw [heq, (hb 'L' (by decide)).2 rfl, hbs (by decide)]
        exact typeSize_object r
      · have hletter : b ∈ baseLetters.map Char.toUInt8 ↔ c ∈ baseLetters := by
          rw [List.mem_map]
          constructor
          · rintro ⟨a, ha, heq⟩
            exact (hb a (ascii_of_mem_baseLetters ha)).1 heq.symm ▸ ha
          · intro hc
            exact ⟨c, hc, ((hb c (ascii_of_mem_baseLetters hc)).2 rfl).symm⟩
        rw [heq, typeSize, if_neg ((hb _ (by decide)).not.2 hopen), if_neg ((hb _ (by decide)).not.2 hclass),
          FieldType.read, if_neg hopen, if_neg hclass]
        simp only [hletter, mem_baseLetters_iff]
        cases hbase : BaseType.ofLetter? c with
        | none => rfl
        | some type =>
          have hchars : (FieldType.base type).chars = [c] := congrArg ([·]) (BaseType.letter_of_ofLetter? hbase)
          have hascii := ascii_of_mem_baseLetters (mem_baseLetters_iff.2 (hbase ▸ Option.some_ne_none type))
          rw [if_pos (Option.some_ne_none type)]
          change Except.ok 1 = Except.ok (encoded (FieldType.base type).chars).length
          rw [hchars, length_encoded_cons hascii]
          rfl

section Agreement

variable {s : String} {position : Nat} {rest : List Char}

/-- The byte at a position between characters is that of a character of one byte only if this character follows. -/
theorem get?_eq_iff (h : Remains s position rest) {a : Char} (ha : a.toNat < 128) :
    (textBytes s)[position]? = some a.toUInt8 ↔ rest.head? = some a := by
  rw [h.get?]
  cases rest with
  | nil => simp
  | cons c r =>
    obtain ⟨b, bs, heq, hb, -⟩ := encoded_cons_eq c r
    rw [heq, List.head?_cons, List.head?_cons, Option.some.injEq, Option.some.injEq, hb a ha]

theorem typeSize_drop (h : Remains s position rest) :
    typeSize ((textBytes s).drop position) = (FieldType.read rest).map fun r => (encoded r.1.chars).length := by
  rw [h.drop, typeSize_encoded]

theorem get?_eq_none_iff (h : Remains s position rest) : (textBytes s)[position]? = none ↔ rest = [] := by
  rw [h.get?, List.head?_eq_none_iff, encoded_eq_nil]

theorem scanParameters_of_close (h : Remains s position (')' :: rest)) :
    scanParameters s position = .ok ([], position + 1) := by
  rw [scanParameters, (get?_eq_iff h (by decide)).2 rfl]
  exact if_pos rfl

theorem scanParameters_of_open {c : Char} (h : Remains s position (c :: rest)) (hclose : c ≠ ')') :
    scanParameters s position =
      match typeSize ((textBytes s).drop position) with
      | .error cause => .error (.malformed cause)
      | .ok size =>
        match cut? s position (position + size) with
        | none => .error .insideCharacter
        | some type => (scanParameters s (position + size)).map fun r => (type :: r.1, r.2) := by
  cases hget : (textBytes s)[position]? with
  | none => cases (get?_eq_none_iff h).1 hget
  | some b =>
    have hb : b ≠ ')'.toUInt8 := by
      rintro rfl
      exact hclose (Option.some.inj ((get?_eq_iff h (by decide)).1 hget))
    rw [scanParameters, hget]
    simp only [if_neg hb]
    split <;> rename_i heq <;> rw [heq]

/-- A type that follows the position is cut out as a whole. -/
theorem scanParameters_of_type {t : FieldType} (h : Remains s position (t.chars ++ rest)) :
    scanParameters s position =
      (scanParameters s (position + (encoded t.chars).length)).map fun r => (t.text :: r.1, r.2) := by
  obtain ⟨c, r, hchars, hc⟩ := t.chars_eq_cons
  have hopen : Remains s position (c :: (r ++ rest)) := by
    rw [hchars] at h
    exact h
  rw [scanParameters_of_open hopen hc, typeSize_drop h, FieldType.read_chars]
  simp only [Except.map, h.cut, FieldType.text]

/-- The positions pass over the parameters that reading finds. -/
theorem scanParameters_ok {ts : List FieldType} {after : List Char} (h : Remains s position rest)
    (hread : readParameters rest = .ok (ts, after)) :
    ∃ stop, scanParameters s position = .ok (ts.map FieldType.text, stop) ∧ Remains s stop after := by
  rw [readParameters_eq_ok] at hread
  subst hread
  induction ts generalizing position with
  | nil =>
    refine ⟨position + 1, scanParameters_of_close h, ?_⟩
    have hafter : Remains s position ([')'] ++ after) := h
    exact hafter.advance
  | cons t ts ih =>
    rw [List.flatMap_cons, List.append_assoc] at h
    obtain ⟨stop, hscan, hstop⟩ := ih h.advance
    refine ⟨stop, ?_, hstop⟩
    rw [scanParameters_of_type h, hscan]
    rfl

theorem scanParameters_error {cause : DescriptorFault} (h : Remains s position rest)
    (hread : readParameters rest = .error cause) : scanParameters s position = .error (.malformed cause) := by
  fun_induction readParameters rest generalizing position with
  | case1 =>
    cases hread
    rw [scanParameters, (get?_eq_none_iff h).2 rfl]
  | case2 => cases hread
  | case3 c r hc e htype =>
    cases hread
    rw [scanParameters_of_open h hc, typeSize_drop h, htype]
    rfl
  | case4 c r hc t rest htype _ e herror ih =>
    cases hread
    rw [FieldType.eq_of_read htype] at h
    rw [scanParameters_of_type h, ih h.advance herror]
    rfl
  | case5 => cases hread

/-- The position stands before the last byte, and this byte is that of `V`. -/
theorem void_iff (h : Remains s position rest) :
    (textBytes s)[position]? = some 'V'.toUInt8 ∧ position + 1 = (textBytes s).length ↔ rest = ['V'] := by
  rw [get?_eq_iff h (by decide), h.length, List.head?_eq_some_iff]
  constructor
  · rintro ⟨⟨r, rfl⟩, hlength⟩
    rw [length_encoded_cons (by decide)] at hlength
    have hr : encoded r = [] := List.eq_nil_of_length_eq_zero (by omega)
    rw [encoded_eq_nil.1 hr]
  · rintro rfl
    exact ⟨⟨[], rfl⟩, rfl⟩

theorem scanResult_eq (h : Remains s position rest) :
    scanResult s position =
      match readResult rest with
      | .error cause => .error (.malformed cause)
      | .ok result => .ok (String.ofList (resultChars result)) := by
  unfold scanResult readResult
  simp only [void_iff h, typeSize_drop h]
  by_cases hvoid : rest = ['V']
  · rw [if_pos hvoid, if_pos hvoid]
    rfl
  · rw [if_neg hvoid, if_neg hvoid]
    cases hread : FieldType.read rest with
    | error cause => rfl
    | ok r =>
      obtain ⟨t, r⟩ := r
      rw [FieldType.eq_of_read hread] at h
      have hlength := h.length
      rw [encoded_append, List.length_append] at hlength
      cases r with
      | nil =>
        simp only [Except.map, hlength, encoded_nil, List.length_nil, Nat.add_zero, if_true, h.cut, resultChars]
      | cons c r =>
        have hpos : 0 < (encoded (c :: r)).length := List.length_pos_iff.2 (by simp)
        simp only [Except.map]
        rw [if_neg (by omega)]

/-- A scan cuts out the texts of what reading finds, or fails with the same fault. -/
theorem scan_eq (s : String) :
    scan s =
      match readAll s.toList with
      | .error cause => .error (.malformed cause)
      | .ok d => .ok (d.parameters.map FieldType.text, d.resultText) := by
  unfold scan
  simp only [get?_eq_iff (Remains.start s) (show '('.toNat < 128 by decide)]
  by_cases hopen : s.toList.head? = some '('
  · obtain ⟨r, hr⟩ := List.head?_eq_some_iff.1 hopen
    have hstart : Remains s 0 (['('] ++ r) := by
      rw [List.singleton_append, ← hr]
      exact Remains.start s
    have hat : Remains s 1 r := hstart.advance
    rw [if_pos hopen, hr, readAll]
    cases hparameters : readParameters r with
    | error cause => rw [scanParameters_error hat hparameters]
    | ok p =>
      obtain ⟨ts, after⟩ := p
      obtain ⟨stop, hscan, hstop⟩ := scanParameters_ok hat hparameters
      simp only [hscan, scanResult_eq hstop]
      cases readResult after <;> rfl
  · rw [if_neg hopen, readAll_of_not_open hopen]

end Agreement

/-- Exactly the composed texts are descriptors. A descriptor is composed of its types in this way only, writing its
types gives it back, and a scan of its bytes cuts it at them. Everything else is malformed, and a scan finds the same
cause; so no scan ever cuts inside a character. -/
theorem parse_composed_exactly (s : String) :
    ((∃ d, parse s = .ok d) ↔ ∃ types result, Composed s types result) ∧
    (∀ d, parse s = .ok d →
      s = "(" ++ String.join (d.parameters.map FieldType.text) ++ ")" ++ d.resultText ∧
      (∀ types result, Composed s types result ↔
        types = d.parameters.map FieldType.text ∧ result = d.resultText) ∧
      scan s = .ok (d.parameters.map FieldType.text, d.resultText)) ∧
    (∀ f, parse s = .error f →
      f.kind = "MalformedDescriptor" ∧ ∃ cause, f = .descriptor s cause ∧ scan s = .error (.malformed cause)) ∧
    (∀ types result, (∀ type ∈ types, WrittenType type.toList) → result = "V" ∨ WrittenType result.toList →
      ∃ d, parse ("(" ++ String.join types ++ ")" ++ result) = .ok d ∧
        d.parameters.map FieldType.text = types ∧ d.resultText = result) ∧
    ∀ parameters result, parse (text ⟨parameters, result⟩) = .ok ⟨parameters, result⟩ := by
  refine ⟨?_, ?_, ?_, ?_, fun parameters result => parse_eq_ok.2 rfl⟩
  · constructor
    · rintro ⟨d, hd⟩
      exact ⟨_, _, composed_iff_parse.2 ⟨d, hd, rfl, rfl⟩⟩
    · rintro ⟨types, result, h⟩
      obtain ⟨d, hd, -⟩ := composed_iff_parse.1 h
      exact ⟨d, hd⟩
  · intro d hd
    refine ⟨(parse_eq_ok.1 hd).trans d.text_eq, ?_, ?_⟩
    · intro types result
      simp [composed_iff_parse, hd]
    · rw [scan_eq, parse_eq_ok_iff_readAll.1 hd]
  · intro f hf
    obtain ⟨cause, rfl, hread⟩ := parse_eq_error hf
    refine ⟨rfl, cause, rfl, ?_⟩
    rw [scan_eq, hread]
  · intro types result htypes hresult
    obtain ⟨d, hd, rfl, rfl⟩ := composed_iff_parse.1 (Composed.mk rfl htypes hresult)
    exact ⟨d, hd, rfl, rfl⟩

theorem parse_composed_exactly_lambda :
    scan "([Lλ;J)V" = .ok (["[Lλ;", "J"], "V") :=
  ((parse_composed_exactly _).2.1 ⟨[.array (.object ⟨['λ'], by decide, by decide⟩), .base .long], none⟩
    (parse_eq_ok.2 rfl)).2.2

end Descriptor

end BytecodeFlow
