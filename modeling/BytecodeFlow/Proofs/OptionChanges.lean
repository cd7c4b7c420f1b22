import BytecodeFlow.Proofs.ArgumentGrammar
import BytecodeFlow.Text.Words

/-! # What reading arguments changes

An option that occurs among the arguments takes the value that is given there. The nesting depth and the reports keep
their former values otherwise; the exploration order does not, since a value is declared for its option and reported
whenever none is given. Words from the first `--` on are handed back. A reading that fails changes nothing.
-/
namespace BytecodeFlow

/-! ### What settings say -/

namespace Given.Adds

variable {g g' : Given} {f : ValueFlag} {text : String} {attached : Bool} {l : List Setting}

theorem content_of_some (h : g.Adds l g') {c : f.Content} (hc : g.content f = some c) : g'.content f = some c := by
  induction h with
  | nil => exact hc
  | @value g _ _ k _ _ _ hfree _ _ ih =>
    have hne : f ≠ k := by
      rintro rfl
      rw [hfree] at hc
      cases hc
    exact ih ((g.content_set_of_ne _ hne).trans hc)
  | statistics _ _ ih => exact ih (by cases f <;> exact hc)

theorem content_of_mem (h : g.Adds l g') (hmem : .value f text attached ∈ l) :
    ∃ c, f.read? text = some c ∧ g'.content f = some c := by
  induction h with
  | nil => cases hmem
  | value _ _ hread hl ih =>
    rcases List.mem_cons.1 hmem with heq | hmem
    · cases heq
      exact ⟨_, hread, hl.content_of_some (content_set_self _ _ _)⟩
    · exact ih hmem
  | statistics _ _ ih =>
    rcases List.mem_cons.1 hmem with heq | hmem
    · cases heq
    · exact ih hmem

theorem content_of_not_mem (h : g.Adds l g') (hnot : ∀ text attached, .value f text attached ∉ l) :
    g'.content f = g.content f := by
  induction h with
  | nil => rfl
  | @value g _ _ k text _ attached _ _ _ ih =>
    have hne : f ≠ k := by
      rintro rfl
      exact hnot text attached List.mem_cons_self
    rw [ih fun text attached hmem => hnot text attached (List.mem_cons_of_mem _ hmem), content_set_of_ne _ _ hne]
  | statistics _ _ ih =>
    rw [ih fun text attached hmem => hnot text attached (List.mem_cons_of_mem _ hmem)]
    cases f <;> rfl

theorem statistics_eq (h : g.Adds l g') : g'.statistics = (g.statistics || decide (.statistics ∈ l)) := by
  induction h with
  | nil => simp
  | value _ _ _ _ ih => simp [ih]
  | statistics hfree _ ih => simp [ih]

end Given.Adds

/-! ### Options among words -/

namespace ValueFlag

def Occurs (f : ValueFlag) (ws : List String) : Prop :=
  "--" ++ f.name ∈ ws ∨ ∃ text, "--" ++ f.name ++ "=" ++ text ∈ ws

def Gives (f : ValueFlag) (ws : List String) (text : String) : Prop :=
  "--" ++ f.name ++ "=" ++ text ∈ ws ∨ ["--" ++ f.name, text] <:+: ws

end ValueFlag

theorem ValueFlag.name_injective {f k : ValueFlag} (h : f.name = k.name) : f = k := by
  revert h
  cases f <;> cases k <;> decide

theorem ValueFlag.name_ne_statistics (f : ValueFlag) : f.name ≠ "statistics" := by
  cases f <;> decide

namespace Setting

def argument : Setting → Argument
  | value f text true => .long f.name (some text)
  | value f _ false => .long f.name none
  | statistics => .long "statistics" none

theorem ofWord_argument (s : Setting) : Argument.ofWord s.argument.written = s.argument := by
  rcases s with ⟨f, text, _ | _⟩ | _
  · exact Argument.ofWord_long f.not_mem_name none
  · exact Argument.ofWord_long f.not_mem_name (some text)
  · exact Argument.ofWord_long (by decide) none

theorem argument_eq_of_written {s : Setting} {name : String} {attached : Option String} (hname : '=' ∉ name.toList)
    (h : Argument.written (.long name attached) = s.argument.written) : s.argument = .long name attached := by
  rw [← s.ofWord_argument, ← h, Argument.ofWord_long hname]

variable {l : List Setting} {f : ValueFlag} {text : String}

/-- The values of the settings do not look like options. -/
def Plain (l : List Setting) : Prop :=
  ∀ f text attached, .value f text attached ∈ l → Argument.ofWord text = .plain text

/-- A word that looks like an option is the first word of a setting. -/
theorem exists_of_word (h : Plain l) {name : String} (hname : '=' ∉ name.toList) (attached : Option String)
    (hmem : Argument.written (.long name attached) ∈ l.flatMap words) :
    ∃ s ∈ l, s.argument = .long name attached := by
  obtain ⟨s, hs, hword⟩ := List.mem_flatMap.1 hmem
  refine ⟨s, hs, ?_⟩
  rcases s with ⟨k, text, _ | _⟩ | _
  · rcases List.mem_cons.1 hword with heq | hword
    · exact argument_eq_of_written hname heq
    · have hlong := Argument.ofWord_long hname attached
      rw [List.mem_singleton.1 hword, h k text false hs] at hlong
      cases hlong
  · exact argument_eq_of_written hname (List.mem_singleton.1 hword)
  · exact argument_eq_of_written hname (List.mem_singleton.1 hword)

theorem argument_eq_attached {s : Setting} (h : s.argument = .long f.name (some text)) : s = .value f text true := by
  rcases s with ⟨k, t, _ | _⟩ | _
  · simp [argument] at h
  · obtain ⟨hname, htext⟩ := Argument.long.inj h
    rw [ValueFlag.name_injective hname, Option.some.inj htext]
  · simp [argument] at h

theorem argument_eq_detached {s : Setting} (h : s.argument = .long f.name none) : ∃ t, s = .value f t false := by
  rcases s with ⟨k, t, _ | _⟩ | _
  · obtain ⟨hname, _⟩ := Argument.long.inj h
    exact ⟨t, by rw [ValueFlag.name_injective hname]⟩
  · simp [argument] at h
  · obtain ⟨hname, _⟩ := Argument.long.inj h
    exact absurd hname.symm f.name_ne_statistics

theorem argument_eq_statistics {s : Setting} (h : s.argument = .long "statistics" none) : s = .statistics := by
  rcases s with ⟨k, t, _ | _⟩ | _
  · obtain ⟨hname, _⟩ := Argument.long.inj h
    exact absurd hname k.name_ne_statistics
  · simp [argument] at h
  · rfl

/-- Two words in a row that look like an option and its value are those of a setting. -/
theorem mem_of_words (h : Plain l) (hwords : [Argument.written (.long f.name none), text] <:+: l.flatMap words) :
    .value f text false ∈ l := by
  induction l with
  | nil => simp at hwords
  | cons s l ih =>
    have htail : Plain l := fun k t attached hmem => h k t attached (List.mem_cons_of_mem _ hmem)
    have hfirst : Argument.written (.long f.name none) = s.argument.written → ∃ t, s = .value f t false :=
      fun heq => argument_eq_detached (argument_eq_of_written f.not_mem_name heq)
    rw [List.flatMap_cons] at hwords
    rcases s with ⟨k, t, _ | _⟩ | _
    · rcases List.infix_cons_iff.1 hwords with hwords | hwords
      · obtain ⟨heq, hrest⟩ := List.cons_prefix_cons.1 hwords
        obtain ⟨_, hsetting⟩ := hfirst heq
        obtain ⟨htext, _⟩ := List.cons_prefix_cons.1 hrest
        rw [hsetting]
        cases hsetting
        rw [htext]
        exact List.mem_cons_self
      · rcases List.infix_cons_iff.1 hwords with hwords | hwords
        · obtain ⟨heq, _⟩ := List.cons_prefix_cons.1 hwords
          have hlong := Argument.ofWord_long f.not_mem_name none
          rw [heq, h k t false List.mem_cons_self] at hlong
          cases hlong
        · exact List.mem_cons_of_mem _ (ih htail hwords)
    · rcases List.infix_cons_iff.1 hwords with hwords | hwords
      · obtain ⟨_, hsetting⟩ := hfirst (List.cons_prefix_cons.1 hwords).1
        cases hsetting
      · exact List.mem_cons_of_mem _ (ih htail hwords)
    · rcases List.infix_cons_iff.1 hwords with hwords | hwords
      · obtain ⟨_, hsetting⟩ := hfirst (List.cons_prefix_cons.1 hwords).1
        cases hsetting
      · exact List.mem_cons_of_mem _ (ih htail hwords)

theorem gives_iff (h : Plain l) : f.Gives (l.flatMap words) text ↔ ∃ attached, .value f text attached ∈ l := by
  constructor
  · rintro (hword | hwords)
    · obtain ⟨s, hs, hargument⟩ := exists_of_word h f.not_mem_name (some text) hword
      exact ⟨true, argument_eq_attached hargument ▸ hs⟩
    · exact ⟨false, mem_of_words h hwords⟩
  · rintro ⟨_ | _, hmem⟩
    · obtain ⟨before, after, rfl⟩ := List.append_of_mem hmem
      exact .inr ⟨before.flatMap words, after.flatMap words, by simp [words, Argument.written]⟩
    · exact .inl (List.mem_flatMap.2 ⟨_, hmem, List.mem_singleton.2 rfl⟩)

theorem occurs_iff (h : Plain l) : f.Occurs (l.flatMap words) ↔ ∃ text attached, .value f text attached ∈ l := by
  constructor
  · rintro (hword | ⟨text, hword⟩)
    · obtain ⟨s, hs, hargument⟩ := exists_of_word h f.not_mem_name none hword
      obtain ⟨text, rfl⟩ := argument_eq_detached hargument
      exact ⟨text, false, hs⟩
    · obtain ⟨s, hs, hargument⟩ := exists_of_word h f.not_mem_name (some text) hword
      exact ⟨text, true, argument_eq_attached hargument ▸ hs⟩
  · rintro ⟨text, _ | _, hmem⟩
    · exact .inl (List.mem_flatMap.2 ⟨_, hmem, List.mem_cons_self⟩)
    · exact .inr ⟨text, List.mem_flatMap.2 ⟨_, hmem, List.mem_singleton.2 rfl⟩⟩

theorem statistics_iff (h : Plain l) : "--statistics" ∈ l.flatMap words ↔ .statistics ∈ l := by
  constructor
  · intro hword
    have hname : '=' ∉ "statistics".toList := by decide
    obtain ⟨s, hs, hargument⟩ := exists_of_word h hname none hword
    exact argument_eq_statistics hargument ▸ hs
  · intro hmem
    exact List.mem_flatMap.2 ⟨_, hmem, List.mem_singleton.2 rfl⟩

end Setting

theorem Given.Adds.plain {g g' : Given} {l : List Setting} (h : g.Adds l g') : Setting.Plain l := by
  intro f text attached hmem
  obtain ⟨c, hread, _⟩ := h.content_of_mem hmem
  exact Argument.ofWord_plain (ValueFlag.head?_of_read? hread)

/-! ### Matching arguments -/

/-- Arguments are matched with the declared options: the value of an option that is given is reported, the declared
value of any other, and exactly unknown or repeated options and values that cannot be read are refused. -/
structure Matcher.Faithful (m : Matcher) : Prop where
  accepts (ws : List String) : (∃ g, m ws = .ok g) ↔
    ∃ settings g, ws = settings.flatMap Setting.words ∧ Given.none.Adds settings g
  given {ws : List String} {g : Given} {f : ValueFlag} {text : String} :
    m ws = .ok g → f.Gives ws text → ∃ c, f.read? text = some c ∧ g.content f = some c
  absent {ws : List String} {g : Given} {f : ValueFlag} : m ws = .ok g → ¬ f.Occurs ws → g.content f = f.default?
  statistics {ws : List String} {g : Given} : m ws = .ok g → (g.statistics = true ↔ "--statistics" ∈ ws)

/-- A reported option that is given has a value. -/
theorem Matcher.Faithful.gives {m : Matcher} (h : m.Faithful) {ws : List String} {g : Given} (hg : m ws = .ok g)
    {f : ValueFlag} (hoccurs : f.Occurs ws) : ∃ text, f.Gives ws text := by
  obtain ⟨settings, _, rfl, hadds⟩ := (h.accepts ws).1 ⟨g, hg⟩
  obtain ⟨text, attached, hmem⟩ := (Setting.occurs_iff hadds.plain).1 hoccurs
  exact ⟨text, (Setting.gives_iff hadds.plain).2 ⟨attached, hmem⟩⟩

theorem Given.content_withDefaults (g : Given) (f : ValueFlag) :
    g.withDefaults.content f = (g.content f).or f.default? := by
  cases f with
  | depth => exact (Option.or_none).symm
  | waitlist => cases hpolicy : g.waitlist <;> simp [content, withDefaults, ValueFlag.default?, hpolicy]

theorem matchArguments_eq_ok {ws : List String} {g : Given} : matchArguments ws = .ok g ↔
    ∃ settings given,
      ws = settings.flatMap Setting.words ∧ Given.none.Adds settings given ∧ g = given.withDefaults := by
  unfold matchArguments
  rw [map_eq_ok]
  constructor
  · rintro ⟨given, hread, rfl⟩
    obtain ⟨settings, hwords, hadds⟩ := readArguments_eq_ok.1 hread
    exact ⟨settings, given, hwords, hadds, rfl⟩
  · rintro ⟨settings, given, hwords, hadds, rfl⟩
    exact ⟨given, readArguments_eq_ok.2 ⟨settings, hwords, hadds⟩, rfl⟩

theorem matchArguments_faithful : Matcher.Faithful matchArguments where
  accepts ws := by
    constructor
    · rintro ⟨g, hg⟩
      obtain ⟨settings, given, hwords, hadds, _⟩ := matchArguments_eq_ok.1 hg
      exact ⟨settings, given, hwords, hadds⟩
    · rintro ⟨settings, given, hwords, hadds⟩
      exact ⟨_, matchArguments_eq_ok.2 ⟨settings, given, hwords, hadds, rfl⟩⟩
  given hg hgives := by
    obtain ⟨settings, given, rfl, hadds, rfl⟩ := matchArguments_eq_ok.1 hg
    obtain ⟨attached, hmem⟩ := (Setting.gives_iff hadds.plain).1 hgives
    obtain ⟨c, hread, hcontent⟩ := hadds.content_of_mem hmem
    exact ⟨c, hread, by rw [Given.content_withDefaults, hcontent, Option.some_or]⟩
  absent {_ _ f} hg hnot := by
    obtain ⟨settings, given, rfl, hadds, rfl⟩ := matchArguments_eq_ok.1 hg
    have hcontent : given.content f = Given.none.content f := hadds.content_of_not_mem fun text attached hmem =>
      hnot ((Setting.occurs_iff hadds.plain).2 ⟨text, attached, hmem⟩)
    have hnone : Given.none.content f = none := by cases f <;> rfl
    rw [Given.content_withDefaults, hcontent, hnone, Option.none_or]
  statistics hg := by
    obtain ⟨settings, given, rfl, hadds, rfl⟩ := matchArguments_eq_ok.1 hg
    have hstatistics : given.withDefaults.statistics = given.statistics := rfl
    rw [hstatistics, hadds.statistics_eq, Setting.statistics_iff hadds.plain]
    simp [Given.none]

/-! ### Options after a reading -/

namespace Options

variable {m : Matcher} {split : String → Option (List String)} {o o' : Options} {arguments rest : List String}
  {g : Given} {e : UsageError}

def apply (o : Options) (g : Given) : Options where
  maxDepth := g.depth.or o.maxDepth
  order := (g.waitlist.map Order.ofPolicy).getD o.order
  statistics := g.statistics || o.statistics

theorem parse_of_ok (h : m (arguments.takeWhile (· != endOfOptions)) = .ok g) (o : Options) :
    parse m arguments o = .ok ((arguments.dropWhile (· != endOfOptions)).drop 1) (o.apply g) := by
  obtain ⟨depth, waitlist, statistics⟩ := g
  unfold parse
  rw [h]
  cases depth <;> cases waitlist <;> cases statistics <;> rfl

theorem parse_of_error (h : m (arguments.takeWhile (· != endOfOptions)) = .error e) (o : Options) :
    parse m arguments o = .error e o := by
  unfold parse
  rw [h]
  rfl

theorem parse_eq_ok : parse m arguments o = .ok rest o' ↔
    ∃ g, m (arguments.takeWhile (· != endOfOptions)) = .ok g ∧ o' = o.apply g ∧
      rest = (arguments.dropWhile (· != endOfOptions)).drop 1 := by
  cases h : m (arguments.takeWhile (· != endOfOptions)) with
  | error e => simp [parse_of_error h]
  | ok g => simp [parse_of_ok h, eq_comm, and_comm]

theorem eq_of_parse_eq_error (h : parse m arguments o = .error e o') : o' = o := by
  cases hmatch : m (arguments.takeWhile (· != endOfOptions)) with
  | error e =>
    rw [parse_of_error hmatch] at h
    cases h
    rfl
  | ok g =>
    rw [parse_of_ok hmatch] at h
    cases h

theorem parseLine_eq (m : Matcher) (split : String → Option (List String)) (line : String) (o : Options) :
    parseLine m split line o = match split line with
      | none => .error .invalidValue o
      | some ws => parse m ws o := by
  unfold parseLine
  cases split line <;> rfl

/-- What became of options when these words were read. -/
structure Changed (o o' : Options) (own : List String) : Prop where
  /-- An option that occurs has a value. -/
  given (f : ValueFlag) : f.Occurs own → ∃ text, f.Gives own text
  depth_kept : ¬ ValueFlag.depth.Occurs own → o'.maxDepth = o.maxDepth
  depth_given (text : String) : ValueFlag.depth.Gives own text → ∃ n, readDepth? text = some n ∧ o'.maxDepth = some n
  order_reset : ¬ ValueFlag.waitlist.Occurs own → o'.order = .depthFirst
  order_given (text : String) : ValueFlag.waitlist.Gives own text →
    text = "dfs" ∧ o'.order = .depthFirst ∨ text = "bfs" ∧ o'.order = .breadthFirst
  statistics : o'.statistics = true ↔ o.statistics = true ∨ "--statistics" ∈ own

theorem changed_apply (hm : m.Faithful) {own : List String} (h : m own = .ok g) (o : Options) :
    Changed o (o.apply g) own where
  given _ hoccurs := hm.gives h hoccurs
  depth_kept hnot := by
    have hdepth : g.depth = none := hm.absent h hnot
    rw [apply, hdepth, Option.none_or]
  depth_given text hgives := by
    obtain ⟨n, hread, hcontent⟩ := hm.given h hgives
    have hdepth : g.depth = some n := hcontent
    exact ⟨n, hread, by rw [apply, hdepth, Option.some_or]⟩
  order_reset hnot := by
    -- the declared value is reported, so the former order does not show
    have hpolicy : g.waitlist = some declaredPolicy := hm.absent h hnot
    rw [apply, hpolicy]
    rfl
  order_given text hgives := by
    obtain ⟨policy, hread, hcontent⟩ := hm.given h hgives
    have hpolicy : g.waitlist = some policy := hcontent
    have hread : readPolicy? text = some policy := hread
    rw [apply, hpolicy]
    unfold readPolicy? at hread
    split at hread
    · rename_i htext
      cases hread
      rcases htext with rfl | rfl
      · exact .inl ⟨rfl, rfl⟩
      · exact .inr ⟨rfl, rfl⟩
    · cases hread
  statistics := by
    rw [apply, Bool.or_eq_true_iff, hm.statistics h, or_comm]

/-- The words before the first `--`, and those after it. -/
theorem split_arguments (arguments : List String) :
    endOfOptions ∉ arguments.takeWhile (· != endOfOptions) ∧
      (arguments = arguments.takeWhile (· != endOfOptions) ++
          endOfOptions :: (arguments.dropWhile (· != endOfOptions)).drop 1 ∨
        arguments = arguments.takeWhile (· != endOfOptions) ∧
          (arguments.dropWhile (· != endOfOptions)).drop 1 = []) := by
  refine ⟨fun hmem => by simpa using List.mem_takeWhile_imp hmem, ?_⟩
  have hsplit := List.takeWhile_append_dropWhile (p := (· != endOfOptions)) (l := arguments)
  cases hrest : arguments.dropWhile (· != endOfOptions) with
  | nil =>
    rw [hrest, List.append_nil] at hsplit
    exact .inr ⟨hsplit.symm, rfl⟩
  | cons w rest =>
    have hw : w = endOfOptions := by
      have hhead := List.head?_dropWhile_not (· != endOfOptions) arguments
      simpa [hrest] using hhead
    rw [hrest, hw] at hsplit
    exact .inl hsplit.symm

/-- However arguments are matched and lines are split: arguments are accepted exactly if the words before the first
`--` are those of settings that can be given together. Then every option that occurs takes the value that is given,
and the words after the `--` are returned. The depth and the reports keep their values if their options do not occur;
the order is depth first then. A reading that fails, of arguments or of a line, leaves the options as they are. -/
theorem parse_changes (m : Matcher) (hm : m.Faithful) (split : String → Option (List String)) (o : Options)
    (arguments : List String) :
    ((∃ rest o', parse m arguments o = .ok rest o') ↔ ∃ settings g,
      arguments.takeWhile (· != endOfOptions) = settings.flatMap Setting.words ∧ Given.none.Adds settings g) ∧
    (∀ rest o', parse m arguments o = .ok rest o' → ∃ own, endOfOptions ∉ own ∧
      (arguments = own ++ endOfOptions :: rest ∨ arguments = own ∧ rest = []) ∧ Changed o o' own) ∧
    (∀ e o', parse m arguments o = .error e o' → o' = o) ∧
    (∀ line ws, split line = some ws → parseLine m split line o = parse m ws o) ∧
    (∀ line, split line = none → parseLine m split line o = .error .invalidValue o) ∧
    ∀ line e o', parseLine m split line o = .error e o' → o' = o := by
  refine ⟨?_, ?_, fun e o' => eq_of_parse_eq_error, ?_, ?_, ?_⟩
  · rw [← hm.accepts]
    constructor
    · rintro ⟨rest, o', hparse⟩
      obtain ⟨g, hmatch, _⟩ := parse_eq_ok.1 hparse
      exact ⟨g, hmatch⟩
    · rintro ⟨g, hmatch⟩
      exact ⟨_, _, parse_of_ok hmatch o⟩
  · intro rest o' hparse
    obtain ⟨g, hmatch, rfl, rfl⟩ := parse_eq_ok.1 hparse
    obtain ⟨hend, hsplit⟩ := split_arguments arguments
    exact ⟨_, hend, hsplit, changed_apply hm hmatch o⟩
  · intro line ws hline
    simp only [parseLine_eq, hline]
  · intro line hline
    simp only [parseLine_eq, hline]
  · intro line e o' hparse
    rw [parseLine_eq] at hparse
    split at hparse
    · cases hparse
      rfl
    · exact eq_of_parse_eq_error hparse

def wide : Options := ⟨some 4, .breadthFirst, false⟩

/-- A new depth comes with its option; the order goes back although nothing was said about it. -/
theorem parse_changes_wide : matchArguments.Faithful ∧ ∃ own, endOfOptions ∉ own ∧
    (["--max_call_stack_depth=7", "--statistics", "--", "--waitlist"] = own ++ endOfOptions :: ["--waitlist"] ∨
      ["--max_call_stack_depth=7", "--statistics", "--", "--waitlist"] = own ∧ ["--waitlist"] = []) ∧
    Changed wide ⟨some 7, .depthFirst, true⟩ own :=
  ⟨matchArguments_faithful,
    (parse_changes matchArguments matchArguments_faithful Text.words wide
      ["--max_call_stack_depth=7", "--statistics", "--", "--waitlist"]).2.1
      ["--waitlist"] ⟨some 7, .depthFirst, true⟩
      (parse_eq_ok.2 ⟨⟨some 7, some "dfs", true⟩, by decide, by decide, by decide⟩)⟩

/-- The order is lost when arguments without its option are read. -/
theorem order_lost_wide : ∃ o', parse matchArguments ["--statistics"] wide = .ok [] o' ∧
    ¬ ValueFlag.waitlist.Occurs ["--statistics"] ∧ o'.order ≠ wide.order := by
  refine ⟨⟨some 4, .depthFirst, true⟩,
    parse_eq_ok.2 ⟨⟨none, some "dfs", true⟩, by decide, by decide, by decide⟩, ?_, by decide⟩
  rintro (hword | ⟨text, hword⟩)
  · simp [ValueFlag.name] at hword
  · have hchars := congrArg String.toList (List.mem_singleton.1 hword)
    simp [ValueFlag.name] at hchars

end Options

end BytecodeFlow
