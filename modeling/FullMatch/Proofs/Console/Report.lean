import FullMatch.Console.Report
import FullMatch.Proofs.Expr.Reprint
import FullMatch.Proofs.Regex.Verdict
import FullMatch.Proofs.Text.Rows
import Mathlib.Data.List.Forall2

/-!
# Reports on texts

A pattern that compiles is reported on text by text, and the exit code sums the entries up
(`Reports`). What is known about the pattern is written in front of that and changes none of it
(`Outcome.behind`), and neither does the automaton that gives the verdicts (`test_reports`).
-/

namespace FullMatch.Console

variable {strategy strategy' : Strategy} {pattern : String} {texts : List String} {e : Expr}
  {regex regex' : Regex}

/-- The entry on a text: a mark, a blank, the text. -/
inductive Entry (e : Expr) (text : String) : String → Prop where
  | matched (denoted : e.Denotes text.toList) : Entry e text s!"✓ {text}\n"
  | unmatched (undenoted : ¬ e.Denotes text.toList) : Entry e text s!"✗ {text}\n"

/-- The command has written one entry for each text, in their order, and nothing else, and its exit
code says whether all texts are in the language of the expression. -/
structure Reports (e : Expr) (texts : List String) (outcome : Outcome) : Prop where
  stdout_eq : ∃ entries, List.Forall₂ (Entry e) texts entries ∧ outcome.stdout = String.join entries
  exit_eq : (outcome.exit = 0 ∧ ∀ text ∈ texts, e.Denotes text.toList) ∨
    (outcome.exit = 1 ∧ ∃ text ∈ texts, ¬ e.Denotes text.toList)
  stderr_eq : outcome.stderr = ""

/-- An outcome with more text in front of it. -/
def Outcome.behind (header : String) (outcome : Outcome) : Outcome :=
  { outcome with stdout := header ++ outcome.stdout }

/-- What is known about a pattern that was read as `e` and has an automaton with so many states. -/
def heading (strategy : Strategy) (pattern : String) (e : Expr) (states : Nat) : String :=
  s!"Compiled pattern:\n  Pattern:  {pattern}\n" ++ s!"  Parsed:   {e.render}\n" ++
    s!"  Strategy: {strategy.name}\n  States:   {states}\n" ++
    s!"  Length:   {lengthLine e.lengths}\n\n"

/-- A compiled pattern can be read again, so that its summary lacks no line and reports nothing. -/
theorem summary_of_compile (compiled : (settings strategy).compile pattern = .ok regex) :
    ∃ e, (settings strategy).parse pattern = .ok e ∧
      summary (settings strategy) regex =
        .out (heading strategy pattern e regex.automaton.stateCount) := by
  obtain ⟨e, automaton, parsed, built, rfl⟩ := Settings.compile_eq_ok.mp compiled
  refine ⟨e, parsed, ?_⟩
  have chosen : automaton.strategy = strategy := Settings.strategy_of_built built
  have lengths := (Settings.decides_of_built built).lengths_eq
  unfold summary heading
  rw [parsed]
  dsimp only
  rw [Output.append_out, Output.append_out, chosen, lengths]
  simp only [String.append_assoc]

/-- The line on a text is its entry. -/
theorem entry_verdictLine {text : String}
    (decides : regex.accepts text = true ↔ e.Denotes text.toList) :
    Entry e text (verdictLine regex text) := by
  unfold verdictLine
  by_cases accepted : regex.accepts text = true
  · rw [if_pos accepted]
    exact .matched (decides.mp accepted)
  · rw [if_neg accepted]
    exact .unmatched (mt decides.mpr accepted)

/-- A pattern that is refused is not tried on any text. -/
theorem test_of_refused {fault : Fault}
    (refused : (settings strategy).compile pattern = .error fault) (verbose : Bool) :
    test strategy verbose pattern texts = refusal fault pattern := by
  rw [test, refused]

/-- A pattern that compiles is tried on all texts. -/
theorem test_of_compile (compiled : (settings strategy).compile pattern = .ok regex) :
    test strategy false pattern texts =
      ⟨if texts.all regex.accepts then 0 else 1, .join (texts.map (verdictLine regex)), ""⟩ := by
  rw [test, compiled]
  dsimp only
  rw [Text.foldl_append_eq_join, if_neg Bool.false_ne_true, Output.none, String.empty_append]

/-- What is known about a pattern that compiles stands in front of the entries. -/
theorem test_verbose {header : String}
    (compiled : (settings strategy).compile pattern = .ok regex)
    (summarised : summary (settings strategy) regex = .out header) :
    test strategy true pattern texts = (test strategy false pattern texts).behind header := by
  rw [test_of_compile compiled, test, compiled]
  dsimp only
  rw [Text.foldl_append_eq_join, if_pos rfl, summarised]
  rfl

/-- The texts are reported on as the expression of the pattern wants it. -/
theorem reports_of_compile (compiled : (settings strategy).compile pattern = .ok regex)
    (parsed : (settings strategy).parse pattern = .ok e) :
    Reports e texts (test strategy false pattern texts) := by
  obtain ⟨e', parsed', decides⟩ := Settings.compile_accepts_iff compiled
  obtain rfl := Settings.parse_unique parsed parsed'
  rw [test_of_compile compiled]
  refine ⟨⟨texts.map (verdictLine regex), ?_, rfl⟩, ?_, rfl⟩
  · rw [List.forall₂_map_right_iff]
    exact List.forall₂_same.mpr fun text _ => entry_verdictLine (decides text)
  · by_cases all : ∀ text ∈ texts, regex.accepts text = true
    · refine .inl ⟨if_pos (List.all_eq_true.mpr all), fun text listed => ?_⟩
      exact (decides text).mp (all text listed)
    · refine .inr ⟨if_neg (mt List.all_eq_true.mp all), ?_⟩
      push Not at all
      obtain ⟨text, listed, refused⟩ := all
      exact ⟨text, listed, mt (decides text).mpr refused⟩

/-- The automaton that gives the verdicts cannot be told from them. -/
theorem test_congr (compiled : (settings strategy).compile pattern = .ok regex)
    (compiled' : (settings strategy').compile pattern = .ok regex') :
    test strategy' false pattern texts = test strategy false pattern texts := by
  obtain ⟨e, parsed, decides⟩ := Settings.compile_accepts_iff compiled
  obtain ⟨e', parsed', decides'⟩ := Settings.compile_accepts_iff compiled'
  obtain rfl := Settings.parse_unique parsed parsed'
  have same : regex'.accepts = regex.accepts :=
    funext fun text => Bool.eq_iff_iff.mpr ((decides' text).trans (decides text).symm)
  have lines : verdictLine regex' = verdictLine regex := by
    funext text
    rw [verdictLine, verdictLine, same]
  rw [test_of_compile compiled, test_of_compile compiled', same, lines]

/-- A pattern that does not compile is reported with an exit code of its own, and nothing else is
written. Any other is reported on text by text, whatever automaton gives the verdicts; what is known
about it can be asked for and stands in front, with the pattern as it was understood: that text is
read again and stands for the same language. -/
theorem test_reports (strategy : Strategy) (pattern : String) (texts : List String) :
    (∀ fault, (settings strategy).compile pattern = .error fault → ∀ verbose,
      test strategy verbose pattern texts =
        ⟨2, "", s!"Error: {(fault.report pattern).render}\n"⟩) ∧
    ∀ regex, (settings strategy).compile pattern = .ok regex →
      ∃ e, (settings strategy).parse pattern = .ok e ∧
        Reports e texts (test strategy false pattern texts) ∧
        test strategy true pattern texts = (test strategy false pattern texts).behind
          (heading strategy pattern e regex.automaton.stateCount) ∧
        (∃ e', (settings strategy).parse e.render = .ok e' ∧
          ∀ text, e'.Denotes text ↔ e.Denotes text) ∧
        ∀ strategy' regex', (settings strategy').compile pattern = .ok regex' →
          test strategy' false pattern texts = test strategy false pattern texts := by
  refine ⟨fun fault refused verbose => test_of_refused refused verbose, fun regex compiled => ?_⟩
  obtain ⟨e, parsed, summarised⟩ := summary_of_compile compiled
  refine ⟨e, parsed, reports_of_compile compiled parsed, ?_, ?_, ?_⟩
  · exact test_verbose compiled summarised
  · exact ⟨e.normal, parsePattern_render_of_parsePattern parsed, (Similar.normal e).denotes_iff⟩
  · exact fun strategy' regex' compiled' => test_congr compiled compiled'

/-- `a?b` compiles for either automaton, and both commands report the same on `ab` and `a`; `a)` is
refused. -/
theorem test_reports_of_optional :
    (∃ regex regex', (settings .dfa).compile "a?b" = .ok regex ∧
      (settings .nfa).compile "a?b" = .ok regex' ∧
      test .nfa false "a?b" ["ab", "a"] = test .dfa false "a?b" ["ab", "a"]) ∧
    ∃ fault, (settings .dfa).compile "a)" = .error fault ∧
      (test .dfa true "a)" ["a"]).exit = 2 := by
  constructor
  · let e : Expr := .concat (.repeated .optional (.literal 'a')) (.literal 'b')
    have parsed (strategy : Strategy) : (settings strategy).parse "a?b" = .ok e := by
      have chars : "a?b".toList = ['a', '?', 'b'] := String.toList_ofList
      rw [Settings.parse, parsePattern, Token.scan, chars]
      rfl
    have builds (strategy : Strategy) : ((settings strategy).automaton e).isOk = true := by
      cases strategy <;> decide +kernel
    have compiles (strategy : Strategy) :
        ∃ regex, (settings strategy).compile "a?b" = .ok regex := by
      have builds := builds strategy
      cases built : (settings strategy).automaton e with
      | error fault =>
        rw [built] at builds
        cases builds
      | ok automaton =>
        exact ⟨_, Settings.compile_eq_ok.mpr ⟨e, automaton, parsed strategy, built, rfl⟩⟩
    obtain ⟨regex, compiled⟩ := compiles .dfa
    obtain ⟨regex', compiled'⟩ := compiles .nfa
    obtain ⟨_, _, _, _, _, agree⟩ := (test_reports .dfa "a?b" ["ab", "a"]).2 regex compiled
    exact ⟨regex, regex', compiled, compiled', agree .nfa regex' compiled'⟩
  · have refused : (settings .dfa).compile "a)" =
        .error (.grammar (.unopenedGroup ⟨.rightParen, ')', 1⟩)) := by
      have chars : "a)".toList = ['a', ')'] := String.toList_ofList
      rw [Settings.compile, Settings.parse, parsePattern, Token.scan, chars]
      rfl
    refine ⟨_, refused, ?_⟩
    rw [(test_reports .dfa "a)" ["a"]).1 _ refused true]

end FullMatch.Console
