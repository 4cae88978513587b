/-!
# Diagnostics

What is reported when a pattern is refused: the stage that refused it, a line in short, the place in
the pattern, and what is wrong there.
-/

namespace FullMatch

/-- The stages of compilation that can refuse a pattern. -/
inductive Stage where
  | lex
  | parse
  | build
  deriving DecidableEq

/-- The stage as messages name it. -/
def Stage.name : Stage → String
  | .lex => "lex"
  | .parse => "parse"
  | .build => "build"

/-- A report on a pattern that was refused. -/
structure Diagnostic where
  stage : Stage
  message : String
  /-- The place in the pattern, counted in characters. -/
  position : Nat
  pattern : String
  details : String
  deriving DecidableEq

namespace Diagnostic

/-- A report whose message names the stage. -/
def ofStage (stage : Stage) (message : String) (position : Nat) (pattern details : String) :
    Diagnostic :=
  ⟨stage, s!"Regex {stage.name} error: {message}", position, pattern, details⟩

/-- The report as it is shown, with a caret under the place in the pattern. -/
def render (d : Diagnostic) : String :=
  let marker := String.ofList (List.replicate d.position ' ')
  s!"{d.message}\nAt position {d.position} in pattern:\n{d.pattern}\n{marker}^\n" ++
    s!"Details: {d.details}"

end Diagnostic

end FullMatch
