import FullMatch.Console.Session
import FullMatch.Proofs.Regex.Report
import FullMatch.Proofs.Regex.Verdict
import FullMatch.Proofs.Text.Lines
import FullMatch.Proofs.Token.Explain
import Mathlib.Data.List.Forall2

/-!
# Transcripts of sessions

A session listens to its input up to the word that ends it, a line that is not text, or the end
(`Heard`). What it says to the lines it hears depends on these alone (`Session.replies`): it refuses
them one by one until one is a pattern, explains that one, and gives a verdict on each line after it
(`Transcript`). Together that is all a session writes, whatever lines its input has, and the input
has the lines that its bytes are (`Session.run_transcript`).
-/

namespace FullMatch.Console

/-- The line is the word `exit`, in letters of either case, but for blanks around it. -/
def IsExit (line : String) : Prop :=
  ∃ before word after, line.toList = before ++ word ++ after ∧
    (∀ c ∈ before, c ∈ Text.whiteSpace) ∧ (∀ c ∈ after, c ∈ Text.whiteSpace) ∧
    word.map Char.toLower = ['e', 'x', 'i', 't']

/-- Which lines of its input a session hears before it ends, what it complains about then, and its
exit code. A line that is not text is `none`. -/
inductive Heard : List (Option String) → List String → String → Nat → Prop where
  | ended : Heard [] [] "" 0
  | exit {line rest} (word : IsExit line) : Heard (some line :: rest) [] "" 0
  | broken {rest} : Heard (none :: rest) [] "Error: stream did not contain valid UTF-8\n" 1
  | line {line rest lines complaint code} (word : ¬ IsExit line)
      (heard : Heard rest lines complaint code) :
      Heard (some line :: rest) (line :: lines) complaint code

/-- The verdict on a line, and the question for the next one. -/
inductive Verdict (e : Expr) (pattern line : String) : Output → Prop where
  | matched (denoted : e.Denotes line.toList) : Verdict e pattern line
      (.out (s!"'{line}' matches pattern '{pattern}'\n" ++
        "Enter text to test (or 'exit' to quit): "))
  | unmatched (undenoted : ¬ e.Denotes line.toList) : Verdict e pattern line
      (.out (s!"'{line}' does not match pattern '{pattern}'\n" ++
        "Enter text to test (or 'exit' to quit): "))

/-- What is said about a pattern that compiles and has the given tokens: it is explained between two
rules. -/
def welcomeRows (pattern : String) (tokens : List Token) : List String :=
  ["Pattern compiled successfully!", "", "=== Pattern Explanation ==="] ++
    Token.explanationRows pattern tokens ++ ["===========================", ""]

/-- What a session says to the lines that it hears, one answer a line. -/
inductive Transcript (strategy : Strategy) : List String → List Output → Prop where
  | nil : Transcript strategy [] []
  /-- A line that does not compile is answered with an error, and a pattern is asked for again. -/
  | refused {line lines outputs fault}
      (refused : (settings strategy).compile line = .error fault)
      (rest : Transcript strategy lines outputs) :
      Transcript strategy (line :: lines)
        (⟨"Enter regex pattern (or 'exit' to quit): ",
          "Error: " ++ Text.ofRows (fault.report line).shown⟩ :: outputs)
  /-- The first line that compiles is explained, and all behind it are matched against it. -/
  | compiled {pattern lines outputs regex e tokens}
      (compiled : (settings strategy).compile pattern = .ok regex)
      (parsed : (settings strategy).parse pattern = .ok e)
      (cut : Token.scan pattern = .ok tokens)
      (verdicts : List.Forall₂ (Verdict e pattern) lines outputs) :
      Transcript strategy (pattern :: lines)
        (.out (Text.ofRows (welcomeRows pattern tokens) ++
          "Enter text to test (or 'exit' to quit): ") :: outputs)

variable {strategy : Strategy} {session : Session} {lines : List String} {line : String}
  {regex : Regex} {e : Expr}

/-- The word that ends a session is recognised. -/
theorem isExitWord_iff : Session.isExitWord line = true ↔ IsExit line := by
  rw [Session.isExitWord, decide_eq_true_eq]
  constructor
  · intro trimmed
    obtain ⟨before, after, cut, front, back⟩ := Text.exists_append_trim line.toList
    exact ⟨before, _, after, cut, fun c member => Text.isBlank_iff.mp (front c member),
      fun c member => Text.isBlank_iff.mp (back c member), trimmed⟩
  · rintro ⟨before, word, after, cut, front, back, letters⟩
    have blank_front (c) (member : c ∈ before) := Text.isBlank_iff.mpr (front c member)
    have blank_back (c) (member : c ∈ after) := Text.isBlank_iff.mpr (back c member)
    have bare : ['e', 'x', 'i', 't'].any Text.isBlank = false := rfl
    have solid : ∀ c ∈ word, ¬ Text.isBlank c = true := by
      intro c within blank
      refine List.any_eq_false.mp bare c ?_ blank
      rw [← letters, ← Text.toLower_of_isBlank blank]
      exact List.mem_map_of_mem within
    have nonempty : word ≠ [] := by
      rintro rfl
      cases letters
    rw [cut, Text.trim_append blank_front blank_back solid nonempty, letters]

/-- Every input is heard up to some line. -/
theorem exists_heard (input : List (Option String)) :
    ∃ lines complaint code, Heard input lines complaint code := by
  induction input with
  | nil => exact ⟨_, _, _, .ended⟩
  | cons first rest ih =>
    cases first with
    | none => exact ⟨_, _, _, .broken⟩
    | some line =>
      obtain ⟨lines, complaint, code, heard⟩ := ih
      by_cases word : IsExit line
      · exact ⟨_, _, _, .exit word⟩
      · exact ⟨_, _, _, .line word heard⟩

/-- The lines that are heard are heard as well when nothing comes behind them. -/
theorem Heard.alone {input : List (Option String)} {complaint : String} {code : Nat}
    (heard : Heard input lines complaint code) : Heard (lines.map some) lines "" 0 := by
  induction heard with
  | ended | exit | broken => exact .ended
  | line word heard ih => exact .line word ih

/-- An output with answers behind it, and at last a complaint. -/
def Output.close (output : Output) (answers : List Output) (complaint : String) (code : Nat) :
    Outcome :=
  ⟨code, output.stdout ++ String.join (answers.map Output.stdout),
    output.stderr ++ (String.join (answers.map Output.stderr) ++ complaint)⟩

theorem Output.close_nil (output : Output) (complaint : String) (code : Nat) :
    output.close [] complaint code = ⟨code, output.stdout, output.stderr ++ complaint⟩ := by
  rw [close, List.map_nil, List.map_nil, String.join_nil, String.append_empty, String.empty_append]

theorem Output.close_append (output answer : Output) (answers : List Output) (complaint : String)
    (code : Nat) :
    (output.append answer).close answers complaint code =
      output.close (answer :: answers) complaint code := by
  simp only [close, append, List.map_cons, String.join_cons, String.append_assoc]

namespace Session

/-- The session goes on. -/
def Running : Session → Prop
  | .ended _ => False
  | _ => True

/-- What a session answers to lines that it hears. -/
def replies (strategy : Strategy) (session : Session) : List String → List Output
  | [] => []
  | line :: lines =>
    let (next, output) := session.take strategy line
    output.append (.out next.prompt) :: next.replies strategy lines

section Ends

variable {output : Output} {input : List (Option String)} {complaint : String} {code : Nat}

theorem runFrom_cons (line : Option String) :
    runFrom strategy session output (line :: input) =
      runFrom strategy (session.step strategy line).1
        (output.append (session.step strategy line).2) input :=
  rfl

/-- Once a session has ended, its input is not looked at. -/
theorem runFrom_ended (input : List (Option String)) :
    runFrom strategy (.ended code) output input = ⟨code, output.stdout, output.stderr⟩ := by
  induction input generalizing output with
  | nil => rfl
  | cons line lines ih =>
    refine ih.trans ?_
    simp only [Output.append, Output.none, String.append_empty]

/-- A line that is heard does not end a session. -/
theorem take_running (running : session.Running) : (session.take strategy line).1.Running := by
  cases session with
  | asking =>
    rw [take]
    split <;> trivial
  | testing regex => trivial
  | ended code => exact running.elim

theorem step_broken (running : session.Running) :
    session.step strategy none =
      (.ended 1, ⟨"", "Error: stream did not contain valid UTF-8\n"⟩) := by
  cases session with
  | asking | testing regex => rfl
  | ended code => exact running.elim

theorem step_exit (running : session.Running) (word : IsExit line) :
    session.step strategy (some line) = (.ended 0, .none) := by
  cases session with
  | asking | testing regex => exact if_pos (isExitWord_iff.mpr word)
  | ended code => exact running.elim

theorem step_line (running : session.Running) (word : ¬ IsExit line) :
    session.step strategy (some line) =
      ((session.take strategy line).1,
        (session.take strategy line).2.append (.out (session.take strategy line).1.prompt)) := by
  cases session with
  | asking | testing regex => exact if_neg (mt isExitWord_iff.mp word)
  | ended code => exact running.elim

/-- A session answers the lines that it hears, and complains at most at its end. -/
theorem runFrom_of_heard (heard : Heard input lines complaint code) (running : session.Running) :
    runFrom strategy session output input =
      output.close (session.replies strategy lines) complaint code := by
  -- By induction on what is heard: a line that is heard leaves a session running, and with any
  -- other the rest of the input is that of a session which has ended.
  induction heard generalizing session output with
  | ended =>
    rw [replies, Output.close_nil, String.append_empty]
    cases session with
    | asking | testing regex => rfl
    | ended code => exact running.elim
  | exit word =>
    rw [runFrom_cons, step_exit running word, runFrom_ended, replies, Output.close_nil]
    simp only [Output.append, Output.none, String.append_empty]
  | broken =>
    rw [runFrom_cons, step_broken running, runFrom_ended, replies, Output.close_nil]
    simp only [Output.append, String.append_empty]
  | line word heard ih =>
    rw [runFrom_cons, step_line running word, replies, ← Output.close_append]
    exact ih (take_running running)

end Ends

section Answers

variable {pattern : String} {fault : Fault}

theorem replies_cons :
    session.replies strategy (line :: lines) =
      (session.take strategy line).2.append (.out (session.take strategy line).1.prompt) ::
        (session.take strategy line).1.replies strategy lines :=
  rfl

/-- A pattern that compiles can be cut into tokens. -/
theorem exists_scan (compiled : (settings strategy).compile pattern = .ok regex) :
    ∃ tokens, Token.scan pattern = .ok tokens := by
  obtain ⟨e, automaton, parsed, -, -⟩ := Settings.compile_eq_ok.mp compiled
  obtain ⟨tokens, cut, -⟩ := parsePattern_eq_ok.mp parsed
  exact ⟨tokens, cut⟩

theorem replies_refused (refused : (settings strategy).compile line = .error fault) :
    asking.replies strategy (line :: lines) =
      ⟨"Enter regex pattern (or 'exit' to quit): ",
        "Error: " ++ Text.ofRows (fault.report line).shown⟩ :: asking.replies strategy lines := by
  have taken : asking.take strategy line = (.asking, ⟨"", errorLine fault line⟩) := by
    rw [take, refused]
  have reported : errorLine fault line = "Error: " ++ Text.ofRows (fault.report line).shown := by
    rw [← Diagnostic.render_append_newline, ← String.append_assoc]
    rfl
  rw [replies_cons, taken]
  dsimp only
  rw [Output.append, Output.out, String.empty_append, String.append_empty, reported, prompt]

/-- What a session says about a pattern that compiles. -/
theorem welcome_eq {tokens : List Token}
    (compiled : (settings strategy).compile pattern = .ok regex)
    (cut : Token.scan pattern = .ok tokens) :
    welcome regex = Text.ofRows (welcomeRows pattern tokens) := by
  have explained := Token.explain_eq_ok.mpr ⟨tokens, cut, rfl⟩
  have opening : Text.ofRows ["Pattern compiled successfully!", "", "=== Pattern Explanation ==="] =
      "Pattern compiled successfully!\n" ++ "\n=== Pattern Explanation ===\n" := rfl
  have closing : Text.ofRows ["===========================", ""] =
      "===========================\n\n" := rfl
  unfold welcome
  rw [Settings.pattern_of_compile compiled, explained, welcomeRows, Text.ofRows_append,
    Text.ofRows_append, opening, closing]
  simp only [String.append_assoc]
  rfl

theorem replies_compiled {tokens : List Token}
    (compiled : (settings strategy).compile pattern = .ok regex)
    (cut : Token.scan pattern = .ok tokens) :
    asking.replies strategy (pattern :: lines) =
      .out (Text.ofRows (welcomeRows pattern tokens) ++
        "Enter text to test (or 'exit' to quit): ") :: (testing regex).replies strategy lines := by
  have taken : asking.take strategy pattern = (.testing regex, .out (welcome regex)) := by
    rw [take, compiled]
  rw [replies_cons, taken]
  dsimp only
  rw [Output.append_out, welcome_eq compiled cut, prompt]

theorem verdict_eq {verb words : String}
    (said : (if regex.accepts line then "matches" else "does not match") = verb)
    (joined : "' " ++ verb ++ " pattern '" = words) :
    verdict regex line = s!"'{line}{words}{regex.pattern}'\n" := by
  rw [verdict, said, ← joined]
  simp only [toString, String.append_assoc]

/-- The verdict of a session on a line, with the question for the next one. -/
theorem verdict_of_decides (decides : regex.accepts line = true ↔ e.Denotes line.toList) :
    Verdict e regex.pattern line
      (.out (verdict regex line ++ "Enter text to test (or 'exit' to quit): ")) := by
  by_cases accepted : regex.accepts line = true
  · rw [verdict_eq (if_pos accepted) rfl]
    exact .matched (decides.mp accepted)
  · rw [verdict_eq (if_neg accepted) rfl]
    exact .unmatched (mt decides.mpr accepted)

/-- The pattern of a session stays what it is, and each line gets its verdict. -/
theorem verdicts_of_testing
    (decides : ∀ text, regex.accepts text = true ↔ e.Denotes text.toList) :
    List.Forall₂ (Verdict e regex.pattern) lines ((testing regex).replies strategy lines) := by
  induction lines with
  | nil => exact .nil
  | cons line lines ih =>
    rw [replies_cons, take, Output.append_out, prompt]
    exact .cons (verdict_of_decides (decides line)) ih

/-- What a session answers to the lines that it hears is a transcript. -/
theorem transcript_replies : Transcript strategy lines (asking.replies strategy lines) := by
  induction lines with
  | nil => exact .nil
  | cons line lines ih =>
    cases result : (settings strategy).compile line with
    | error fault =>
      rw [replies_refused result]
      exact .refused result ih
    | ok regex =>
      obtain ⟨tokens, cut⟩ := exists_scan result
      obtain ⟨e, parsed, decides⟩ := Settings.compile_accepts_iff result
      rw [replies_compiled result cut]
      have verdicts : List.Forall₂ (Verdict e regex.pattern) lines
          ((testing regex).replies strategy lines) := verdicts_of_testing decides
      rw [Settings.pattern_of_compile result] at verdicts
      exact .compiled result parsed cut verdicts

end Answers

/-- A session hears the lines of its input up to the word that ends it, a line that is not text, or
the end, and writes an answer to each line that it hears, in their order, and nothing else, but for
the first question, and for an error if it ends at a line that is not text. It is the session over
the lines that it hears alone, but for that error and its exit code. The lines of a stream of bytes
are cut off at its line feeds, and those are text whose bytes encode one. -/
theorem run_transcript (strategy : Strategy) :
    (∀ input : List (Option String), ∃ lines complaint code answers,
      Heard input lines complaint code ∧ Transcript strategy lines answers ∧
      runLines strategy input =
        ⟨code, "Enter regex pattern (or 'exit' to quit): " ++
            String.join (answers.map Output.stdout),
          String.join (answers.map Output.stderr) ++ complaint⟩ ∧
      runLines strategy (lines.map some) =
        ⟨0, (runLines strategy input).stdout, String.join (answers.map Output.stderr)⟩) ∧
    ∀ bytes, ∃ input, Text.Reads bytes input ∧ run strategy bytes = runLines strategy input := by
  constructor
  · intro input
    obtain ⟨lines, complaint, code, heard⟩ := exists_heard input
    have running : asking.Running := trivial
    have ran : runLines strategy input =
        (Output.out (prompt .asking)).close (asking.replies strategy lines) complaint code :=
      runFrom_of_heard heard running
    have alone : runLines strategy (lines.map some) =
        (Output.out (prompt .asking)).close (asking.replies strategy lines) "" 0 :=
      runFrom_of_heard heard.alone running
    refine ⟨lines, complaint, code, asking.replies strategy lines, heard, transcript_replies,
      ?_, ?_⟩
    · rw [ran, Output.close, Output.out, prompt, String.empty_append]
    · rw [alone, ran, Output.close, Output.close, Output.out, String.append_empty,
        String.empty_append]
  · exact fun bytes => ⟨_, Text.reads_iff.mpr rfl, rfl⟩

end Session

end FullMatch.Console
