import BytecodeFlow.Options.Arguments
import BytecodeFlow.Proofs.Effects
import Mathlib.Data.List.TakeWhile

/-! # The grammar of accepted arguments

Arguments are accepted exactly if they are the words of settings, written one after the other, in which every option
is given once at most and has a well-formed value. A value that is a word of its own never looks like an option, so
the settings can be told from the words.
-/
namespace BytecodeFlow

/-! ### Words -/

namespace Argument

def written : Argument → String
  | long name none => "--" ++ name
  | long name (some value) => "--" ++ name ++ "=" ++ value
  | short letters => "-" ++ String.ofList letters
  | plain text => text

theorem written_ofLong (cs : List Char) : (ofLong cs).written = "--" ++ String.ofList cs := by
  unfold ofLong
  have hsplit := List.takeWhile_append_dropWhile (p := (· != '=')) (l := cs)
  cases hrest : cs.dropWhile (· != '=') with
  | nil =>
    rw [hrest, List.append_nil] at hsplit
    simp [written, hsplit]
  | cons c value =>
    have hc : c = '=' := by
      have hhead := List.head?_dropWhile_not (· != '=') cs
      simpa [hrest] using hhead
    rw [hrest, hc] at hsplit
    have hchars : ("--" ++ String.ofList cs).toList = '-' :: '-' :: (cs.takeWhile (· != '=') ++ '=' :: value) := by
      rw [hsplit]
      simp
    apply String.toList_inj.1
    rw [hchars]
    simp [written]

/-- No two words are taken alike. -/
theorem written_ofWord (w : String) : (ofWord w).written = w := by
  unfold ofWord
  apply String.toList_inj.1
  split
  · rename_i cs hw
    rw [written_ofLong, hw]
    simp
  · rename_i c cs _ hw
    rw [hw]
    simp [written]
  · rfl

theorem ofWord_long {name : String} (h : '=' ∉ name.toList) (value : Option String) :
    ofWord (written (.long name value)) = .long name value := by
  have hname : ∀ c ∈ name.toList, (c != '=') = true := fun c hc => bne_iff_ne.2 fun heq => h (heq ▸ hc)
  cases value with
  | none =>
    have hchars : (written (.long name none)).toList = '-' :: '-' :: name.toList := by simp [written]
    simp [ofWord, hchars, ofLong, List.takeWhile_eq_self_iff.2 hname, List.dropWhile_eq_nil_iff.2 hname]
  | some v =>
    have hchars : (written (.long name (some v))).toList = '-' :: '-' :: (name.toList ++ '=' :: v.toList) := by
      simp [written]
    simp [ofWord, hchars, ofLong, List.takeWhile_append_of_pos hname, List.dropWhile_append_of_pos hname]

theorem ofWord_plain {w : String} (h : w.toList.head? ≠ some '-') : ofWord w = .plain w := by
  unfold ofWord
  split
  · rename_i hw
    simp [hw] at h
  · rename_i hw
    simp [hw] at h
  · rfl

end Argument

/-! ### Settings -/

namespace ValueFlag

def name : ValueFlag → String
  | depth => "max_call_stack_depth"
  | waitlist => "waitlist"

theorem not_mem_name (f : ValueFlag) : '=' ∉ f.name.toList := by
  cases f <;> decide

abbrev Content : ValueFlag → Type
  | depth => Nat
  | waitlist => String

def read? : (f : ValueFlag) → String → Option f.Content
  | depth => readDepth?
  | waitlist => readPolicy?

def default? : (f : ValueFlag) → Option f.Content
  | depth => none
  | waitlist => some declaredPolicy

/-- A value that can be read does not begin with a dash. -/
theorem head?_of_read? {f : ValueFlag} {text : String} {c : f.Content} (h : f.read? text = some c) :
    text.toList.head? ≠ some '-' := by
  cases f with
  | depth =>
    intro hhead
    obtain ⟨cs, hcs⟩ := List.head?_eq_some_iff.1 hhead
    simp [read?, readDepth?, hcs] at h
  | waitlist =>
    simp only [read?, readPolicy?] at h
    split at h
    · rename_i htext
      rcases htext with rfl | rfl <;> decide
    · cases h

end ValueFlag

theorem Flag.ofName?_eq_value {name : String} {f : ValueFlag} :
    Flag.ofName? name = some (.value f) ↔ name = f.name := by
  unfold Flag.ofName?
  cases f <;> grind [ValueFlag.name]

theorem Flag.ofName?_eq_statistics {name : String} :
    Flag.ofName? name = some (.switch .statistics) ↔ name = "statistics" := by
  unfold Flag.ofName?
  grind

inductive Setting where
  /-- The value follows in the same word if it is attached, and as a word of its own otherwise. -/
  | value (f : ValueFlag) (text : String) (attached : Bool)
  | statistics
  deriving DecidableEq, Repr

def Setting.words : Setting → List String
  | value f text true => [Argument.written (.long f.name (some text))]
  | value f text false => [Argument.written (.long f.name none), text]
  | statistics => [Argument.written (.long "statistics" none)]

namespace Given

def content (g : Given) : (f : ValueFlag) → Option f.Content
  | .depth => g.depth
  | .waitlist => g.waitlist

def set (g : Given) : (f : ValueFlag) → f.Content → Given
  | .depth, n => { g with depth := some n }
  | .waitlist, policy => { g with waitlist := some policy }

@[simp] theorem content_set_self (g : Given) (f : ValueFlag) (c : f.Content) : (g.set f c).content f = some c := by
  cases f <;> rfl

theorem content_set_of_ne (g : Given) {f k : ValueFlag} (c : f.Content) (h : k ≠ f) :
    (g.set f c).content k = g.content k := by
  cases f <;> cases k <;> first | rfl | exact absurd rfl h

@[simp] theorem statistics_set (g : Given) (f : ValueFlag) (c : f.Content) : (g.set f c).statistics = g.statistics := by
  cases f <;> rfl

/-- What the settings add to what has been said. Each option is given once at most, and its value can be read. -/
inductive Adds : Given → List Setting → Given → Prop
  | nil (g : Given) : Adds g [] g
  | value {g g' : Given} {l : List Setting} {f : ValueFlag} {text : String} {c : f.Content} (attached : Bool) :
    g.content f = .none → f.read? text = some c → Adds (g.set f c) l g' → Adds g (.value f text attached :: l) g'
  | statistics {g g' : Given} {l : List Setting} :
    g.statistics = false → Adds { g with statistics := true } l g' → Adds g (.statistics :: l) g'

variable {g g₁ g' : Given} {f : ValueFlag} {text : String} {l : List Setting}

theorem accept_eq_ok : g.accept f (some text) = .ok g₁ ↔
    g.content f = .none ∧ ∃ c, f.read? text = some c ∧ g₁ = g.set f c := by
  cases f with
  | depth =>
    simp only [accept, content, ValueFlag.read?, set]
    cases g.depth <;> cases readDepth? text <;> simp [eq_comm]
  | waitlist =>
    simp only [accept, content, ValueFlag.read?, set]
    cases g.waitlist <;> cases readPolicy? text <;> simp [eq_comm]

theorem switch_eq_ok {s : Switch} : g.switch s = .ok g₁ ↔
    s = .statistics ∧ g.statistics = false ∧ g₁ = { g with statistics := true } := by
  cases s with
  | statistics => grind [switch]
  | help => simp [switch]
  | version => simp [switch]

theorem Adds.accept (attached : Bool) (h : g.accept f (some text) = .ok g₁) (hl : g₁.Adds l g') :
    g.Adds (.value f text attached :: l) g' := by
  obtain ⟨hfree, c, hread, rfl⟩ := accept_eq_ok.1 h
  exact .value attached hfree hread hl

/-- A value that is accepted does not look like an option. -/
theorem ofWord_of_accept (h : g.accept f (some text) = .ok g₁) : Argument.ofWord text = .plain text := by
  obtain ⟨_, c, hread, _⟩ := accept_eq_ok.1 h
  exact Argument.ofWord_plain (ValueFlag.head?_of_read? hread)

end Given

/-! ### Reading words -/

/-- The words that have been taken for an option whose value has not been checked yet. -/
def unsettled : Option Pending → List String
  | none => []
  | some ⟨f, none⟩ => [Argument.written (.long f.name none)]
  | some ⟨f, some text⟩ => (Setting.value f text false).words

variable {g g₁ g' : Given} {pending pending' : Option Pending} {w : String} {ws : List String}

/-- One-letter flags only ask for help or the version. -/
theorem readLetters_ne_ok (c : Char) (cs : List Char) : readLetters g pending (c :: cs) ≠ .ok g' := by
  intro h
  rw [readLetters] at h
  split at h
  · cases h
  · rename_i s hletter
    split at h
    · cases h
    · split at h
      · cases h
      · rename_i hswitch
        obtain ⟨rfl, _⟩ := Given.switch_eq_ok.1 hswitch
        unfold Switch.ofLetter? at hletter
        grind

theorem ofWord_ne_short_nil (w : String) : Argument.ofWord w ≠ .short [] := by
  unfold Argument.ofWord
  split
  · exact fun h => by cases h
  · simp
  · simp

/-- A word that is taken is the value of the option before it, or it settles that option and begins another one. -/
theorem readArgument_cases (h : readArgument g pending (.ofWord w) = .ok (g₁, pending')) :
    (∃ f, pending = some ⟨f, none⟩ ∧ g₁ = g ∧ pending' = some ⟨f, some w⟩) ∨
      ∃ g₂, g.settle pending = .ok g₂ ∧
        ((∃ f, w = Argument.written (.long f.name none) ∧ g₁ = g₂ ∧ pending' = some ⟨f, none⟩) ∨
          (∃ f text, w = Argument.written (.long f.name (some text)) ∧ g₂.accept f (some text) = .ok g₁ ∧
            pending' = none) ∨
          (w = Argument.written (.long "statistics" none) ∧ g₂.switch .statistics = .ok g₁ ∧ pending' = none)) := by
  have hword := Argument.written_ofWord w
  cases hargument : Argument.ofWord w with
  | plain text =>
    rw [hargument] at h hword
    obtain rfl : text = w := hword
    simp only [readArgument] at h
    split at h
    · rename_i f
      cases h
      exact .inl ⟨f, rfl, rfl, rfl⟩
    · cases h
  | short letters =>
    rw [hargument] at h
    cases letters with
    | nil => exact absurd hargument (ofWord_ne_short_nil w)
    | cons c cs =>
      obtain ⟨g₂, hletters, _⟩ := bind_eq_ok.1 h
      exact absurd hletters (readLetters_ne_ok c cs)
  | long name attached =>
    rw [hargument] at h hword
    right
    simp only [readArgument] at h
    split at h
    · cases h
    · cases h
    · rename_i s hflag
      obtain ⟨g₂, hsettle, h⟩ := bind_eq_ok.1 h
      obtain ⟨g₃, hswitch, h⟩ := bind_eq_ok.1 h
      cases h
      obtain ⟨rfl, _⟩ := Given.switch_eq_ok.1 hswitch
      obtain rfl := Flag.ofName?_eq_statistics.1 hflag
      exact ⟨g₂, hsettle, .inr (.inr ⟨hword.symm, hswitch, rfl⟩)⟩
    · rename_i f text hflag
      obtain ⟨g₂, hsettle, h⟩ := bind_eq_ok.1 h
      obtain ⟨g₃, haccept, h⟩ := bind_eq_ok.1 h
      cases h
      obtain rfl := Flag.ofName?_eq_value.1 hflag
      exact ⟨g₂, hsettle, .inr (.inl ⟨f, text, hword.symm, haccept, rfl⟩)⟩
    · rename_i f hflag
      obtain ⟨g₂, hsettle, h⟩ := bind_eq_ok.1 h
      cases h
      obtain rfl := Flag.ofName?_eq_value.1 hflag
      exact ⟨_, hsettle, .inl ⟨f, hword.symm, rfl, rfl⟩⟩

theorem exists_of_settle (h : g.settle pending = .ok g₁) :
    ∃ settings : List Setting, unsettled pending = settings.flatMap Setting.words ∧
      ∀ l, g₁.Adds l g' → g.Adds (settings ++ l) g' := by
  rcases pending with _ | ⟨f, _ | text⟩
  · cases h
    exact ⟨[], rfl, fun l hl => hl⟩
  · cases h
  · exact ⟨[.value f text false], rfl, fun l hl => hl.accept false h⟩

/-- Words that are accepted are those of settings. -/
theorem exists_settings (h : readArguments g pending ws = .ok g') :
    ∃ settings : List Setting, unsettled pending ++ ws = settings.flatMap Setting.words ∧ g.Adds settings g' := by
  induction ws generalizing g pending with
  | nil =>
    obtain ⟨settings, hwords, hadds⟩ := exists_of_settle h
    exact ⟨settings ++ [], by simp [hwords], hadds [] (.nil g')⟩
  | cons w ws ih =>
    rw [readArguments] at h
    split at h
    · cases h
    · rename_i g₁ pending' hread
      obtain ⟨later, hlater, hadds⟩ := ih h
      rcases readArgument_cases hread with ⟨f, rfl, rfl, rfl⟩ | ⟨g₂, hsettle, hnext⟩
      · exact ⟨later, hlater, hadds⟩
      · obtain ⟨settings, hwords, hbefore⟩ := exists_of_settle hsettle
        rcases hnext with ⟨f, rfl, rfl, rfl⟩ | ⟨f, text, rfl, haccept, rfl⟩ | ⟨rfl, hswitch, rfl⟩
        · exact ⟨settings ++ later, by rw [List.flatMap_append, hwords, ← hlater]; rfl, hbefore later hadds⟩
        · refine ⟨settings ++ .value f text true :: later, ?_, hbefore _ (hadds.accept true haccept)⟩
          rw [List.flatMap_append, List.flatMap_cons, hwords, ← hlater]
          rfl
        · obtain ⟨_, hfree, rfl⟩ := Given.switch_eq_ok.1 hswitch
          refine ⟨settings ++ .statistics :: later, ?_, hbefore _ (.statistics hfree hadds)⟩
          rw [List.flatMap_append, List.flatMap_cons, hwords, ← hlater]
          rfl

/-- An option whose value is well formed may be settled at once. -/
theorem readArguments_of_accept {f : ValueFlag} {text : String} (h : g.accept f (some text) = .ok g₁) :
    readArguments g (some ⟨f, some text⟩) ws = readArguments g₁ none ws := by
  have hsettle : g.settle (some ⟨f, some text⟩) = g₁.settle none := h
  cases ws with
  | nil => exact hsettle
  | cons w ws =>
    have hread : readArgument g (some ⟨f, some text⟩) (.ofWord w) = readArgument g₁ none (.ofWord w) := by
      cases hargument : Argument.ofWord w with
      | plain text => rfl
      | short letters =>
        cases letters with
        | nil => exact absurd hargument (ofWord_ne_short_nil w)
        | cons c cs => simp only [readArgument, readLetters, hsettle]
      | long name attached => simp only [readArgument, hsettle]
    rw [readArguments, readArguments, hread]

theorem readArguments_cons (h : readArgument g pending (.ofWord w) = .ok (g₁, pending')) :
    readArguments g pending (w :: ws) = readArguments g₁ pending' ws := by
  rw [readArguments, h]

/-- The words of settings are accepted. -/
theorem readArguments_of_adds {settings : List Setting} (h : g.Adds settings g') :
    readArguments g none (settings.flatMap Setting.words) = .ok g' := by
  induction settings generalizing g with
  | nil =>
    cases h
    rfl
  | cons s settings ih =>
    rw [List.flatMap_cons]
    cases h with
    | @value _ _ _ f text c attached hfree hcontent hadds =>
      have haccept : g.accept f (some text) = .ok (g.set f c) := Given.accept_eq_ok.2 ⟨hfree, c, hcontent, rfl⟩
      have hflag : Flag.ofName? f.name = some (.value f) := Flag.ofName?_eq_value.2 rfl
      cases attached with
      | true =>
        have hread : readArgument g none (.ofWord (Argument.written (.long f.name (some text)))) =
            .ok (g.set f c, none) := by
          rw [Argument.ofWord_long f.not_mem_name]
          simp only [readArgument, hflag]
          exact bind_eq_ok.2 ⟨g, rfl, bind_eq_ok.2 ⟨_, haccept, rfl⟩⟩
        exact (readArguments_cons hread).trans (ih hadds)
      | false =>
        have hoption : readArgument g none (.ofWord (Argument.written (.long f.name none))) =
            .ok (g, some ⟨f, none⟩) := by
          rw [Argument.ofWord_long f.not_mem_name]
          simp only [readArgument, hflag]
          exact bind_eq_ok.2 ⟨g, rfl, rfl⟩
        have htext : readArgument g (some ⟨f, none⟩) (.ofWord text) = .ok (g, some ⟨f, some text⟩) := by
          rw [Given.ofWord_of_accept haccept]
          rfl
        exact (readArguments_cons hoption).trans
          ((readArguments_cons htext).trans ((readArguments_of_accept haccept).trans (ih hadds)))
    | statistics hfree hadds =>
      have hflag : Flag.ofName? "statistics" = some (.switch .statistics) := Flag.ofName?_eq_statistics.2 rfl
      have hread : readArgument g none (.ofWord (Argument.written (.long "statistics" none))) =
          .ok ({ g with statistics := true }, none) := by
        rw [Argument.ofWord_long (by decide)]
        simp only [readArgument, hflag]
        exact bind_eq_ok.2 ⟨g, rfl, bind_eq_ok.2 ⟨_, Given.switch_eq_ok.2 ⟨rfl, hfree, rfl⟩, rfl⟩⟩
      exact (readArguments_cons hread).trans (ih hadds)

/-- Arguments are accepted exactly if they are the words of settings that can be given together. -/
theorem readArguments_eq_ok :
    readArguments g none ws = .ok g' ↔
      ∃ settings : List Setting, ws = settings.flatMap Setting.words ∧ g.Adds settings g' := by
  constructor
  · exact exists_settings
  · rintro ⟨settings, rfl, hadds⟩
    exact readArguments_of_adds hadds

end BytecodeFlow
