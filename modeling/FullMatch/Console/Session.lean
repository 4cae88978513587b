import FullMatch.Console.Report
import FullMatch.Text.Blank
import FullMatch.Text.Lines

/-!
# Interactive sessions

A session asks for a pattern until one compiles, explains it, and then tests one line after another
against it. The word `exit` or the end of the input ends it well; a line that is not text ends it
with an error.
-/

namespace FullMatch.Console

/-- How far a session has come. -/
inductive Session where
  /-- No pattern has compiled yet. -/
  | asking
  | testing (regex : Regex)
  | ended (exit : Nat)

namespace Session

/-- The word that ends a session, in letters of either case and with blanks around it. -/
def isExitWord (line : String) : Bool :=
  (Text.trim line.toList).map Char.toLower = ['e', 'x', 'i', 't']

/-- What is asked for before the next line is read. -/
def prompt : Session → String
  | .asking => "Enter regex pattern (or 'exit' to quit): "
  | .testing _ => "Enter text to test (or 'exit' to quit): "
  | .ended _ => ""

/-- What is said about a pattern that compiled. -/
def welcome (regex : Regex) : String :=
  let explanation := match Token.explain regex.pattern with
    | .ok text =>
      s!"\n=== Pattern Explanation ===\n{text}===========================\n\n"
    | .error _ => ""
  "Pattern compiled successfully!\n" ++ explanation

/-- The verdict on a line. -/
def verdict (regex : Regex) (line : String) : String :=
  let verb := if regex.accepts line then "matches" else "does not match"
  s!"'{line}' {verb} pattern '{regex.pattern}'\n"

/-- What a session does with a line that is not the exit word. -/
def take (strategy : Strategy) (session : Session) (line : String) : Session × Output :=
  match session with
  | .asking =>
    match (settings strategy).compile line with
    | .ok regex => (.testing regex, .out (welcome regex))
    | .error fault => (.asking, ⟨"", errorLine fault line⟩)
  | .testing regex => (.testing regex, .out (verdict regex line))
  | .ended exit => (.ended exit, .none)

/-- What a session does with the next line of its input, which may not be text. -/
def step (strategy : Strategy) (session : Session) (line : Option String) : Session × Output :=
  match session, line with
  | .ended exit, _ => (.ended exit, .none)
  | _, none => (.ended 1, ⟨"", "Error: stream did not contain valid UTF-8\n"⟩)
  | session, some line =>
    if isExitWord line then (.ended 0, .none)
    else
      let (next, output) := session.take strategy line
      (next, output.append (.out next.prompt))

/-- What the rest of a session adds to the output so far. -/
def runFrom (strategy : Strategy) (session : Session) (output : Output) :
    List (Option String) → Outcome
  | [] =>
    let exit := match session with
      | .ended exit => exit
      | _ => 0
    ⟨exit, output.stdout, output.stderr⟩
  | line :: lines =>
    let (next, more) := session.step strategy line
    runFrom strategy next (output.append more) lines

/-- A session over the lines of its input. -/
def runLines (strategy : Strategy) (input : List (Option String)) : Outcome :=
  runFrom strategy .asking (.out (prompt .asking)) input

/-- A session over the bytes of its input. -/
def run (strategy : Strategy) (input : List UInt8) : Outcome :=
  runLines strategy ((Text.lines input).map Text.Line.text?)

end Session

end FullMatch.Console
