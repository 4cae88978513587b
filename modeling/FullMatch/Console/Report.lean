import FullMatch.Regex
import FullMatch.Token.Explain

/-!
# Console reports

What the commands that need no input write: the verdicts on given texts, and the explanation of a
pattern.
-/

namespace FullMatch.Console

/-- Text written to the two streams. -/
structure Output where
  stdout : String
  stderr : String
  deriving DecidableEq

namespace Output

/-- Text on the standard stream alone. -/
def out (text : String) : Output :=
  ⟨text, ""⟩

/-- Nothing written. -/
def none : Output :=
  ⟨"", ""⟩

/-- What was written, and then more. -/
def append (first second : Output) : Output :=
  ⟨first.stdout ++ second.stdout, first.stderr ++ second.stderr⟩

theorem append_out (first second : String) :
    (out first).append (out second) = out (first ++ second) := by
  rw [out, out, append, String.append_empty, out]

end Output

/-- What a command leaves behind. -/
structure Outcome where
  exit : Nat
  stdout : String
  stderr : String
  deriving DecidableEq

/-- The line that reports why a pattern is refused. -/
def errorLine (fault : Fault) (pattern : String) : String :=
  s!"Error: {(fault.report pattern).render}\n"

/-- The command on a pattern that is refused. -/
def refusal (fault : Fault) (pattern : String) : Outcome :=
  ⟨2, "", errorLine fault pattern⟩

/-- The settings of the console: the standard ones, but for the strategy. -/
def settings (strategy : Strategy) : Settings :=
  { Settings.standard with strategy }

/-- The lengths that a pattern accepts, as an interval. -/
def lengthLine (lengths : LengthRange) : String :=
  let greatest := match lengths.greatest with
    | some n => toString n
    | none => "unbounded"
  s!"[{lengths.least}, {greatest}]"

/-- What is known about a compiled pattern before any text is tested. The pattern is read once more
to show how it was understood. -/
def summary (settings : Settings) (regex : Regex) : Output :=
  let parsed : Output := match settings.parse regex.pattern with
    | .ok e => .out s!"  Parsed:   {e.render}\n"
    | .error fault => ⟨"", errorLine fault regex.pattern⟩
  let automaton := regex.automaton
  (Output.out s!"Compiled pattern:\n  Pattern:  {regex.pattern}\n").append
    (parsed.append (.out
      (s!"  Strategy: {automaton.strategy.name}\n  States:   {automaton.stateCount}\n" ++
        s!"  Length:   {lengthLine automaton.lengths}\n\n")))

/-- The line with the verdict on a text. -/
def verdictLine (regex : Regex) (text : String) : String :=
  let mark := if regex.accepts text then "✓" else "✗"
  s!"{mark} {text}\n"

/-- Tests every text against a pattern. The exit code says whether all of them matched. -/
def test (strategy : Strategy) (verbose : Bool) (pattern : String) (texts : List String) :
    Outcome :=
  let settings := settings strategy
  match settings.compile pattern with
  | .error fault => refusal fault pattern
  | .ok regex =>
    let header := if verbose then summary settings regex else .none
    { exit := if texts.all regex.accepts then 0 else 1
      stdout := texts.foldl (fun out text => out ++ verdictLine regex text) header.stdout
      stderr := header.stderr }

/-- Explains a pattern. -/
def explain (pattern : String) : Outcome :=
  match Token.explain pattern with
  | .ok text => ⟨0, text, ""⟩
  | .error fault => refusal (.scan fault) pattern

end FullMatch.Console
