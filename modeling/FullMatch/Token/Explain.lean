import FullMatch.Token.Scan

/-!
# Explanations

A pattern in words, one line for each token.
-/

namespace FullMatch.Token

/-- What a token does, in words. -/
def describe (t : Token) : String :=
  let value := t.value
  "• " ++ match t.kind with
  | .char => s!"Matches literal character '{value}'"
  | .escaped => s!"Matches escaped literal character '{value}'"
  | .dot => "Matches any single ASCII character"
  | .star => "Matches zero or more of the preceding element"
  | .plus => "Matches one or more of the preceding element"
  | .question => "Matches zero or one of the preceding element (optional)"
  | .leftParen => "Starts a group"
  | .rightParen => "Ends a group"
  | .pipe => "OR operator - matches either the pattern before or after"
  | .leftBracket => "Starts a character class (matches any one character from the set)"
  | .rightBracket => "Ends a character class"
  | .caret => "Negates the character class ('^' anchors are not supported)"
  | .dollar => "'$' anchor (not supported: patterns always match the whole input)"
  | .dash => "Range operator between the surrounding characters"
  | .word => "Matches word characters (letters, digits, underscore)"
  | .digit => "Matches any digit (0-9)"
  | .leftBrace => "Starts a repetition count \x7bmin,max\x7d"
  | .rightBrace => "Ends a repetition count"
  | .number => s!"Repetition count digit '{value}'"
  | .comma => "Separates the minimum and maximum repetition count"

/-- The explanation of a pattern with the given tokens. -/
def explanation (pattern : String) (tokens : List Token) : String :=
  tokens.foldl (fun text t => text ++ t.describe ++ "\n")
    s!"Pattern explanation for: {pattern}\n\n"

/-- The explanation of a pattern; it needs the tokens alone, so patterns that denote no expression
have one too. -/
def explain (pattern : String) : Except ScanFault String :=
  (scan pattern).map (explanation pattern)

end FullMatch.Token
