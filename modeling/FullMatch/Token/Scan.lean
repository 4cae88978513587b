import FullMatch.Token.Basic

/-!
# Scanning

`Token.scan` cuts pattern text into tokens. A character is classified by where it stands: outside
brackets, inside a class, or inside the braces of a repetition count. A backslash takes the next
character with it in all three places. Nothing is skipped, so the text can be put together again
from its tokens.
-/

namespace FullMatch.Token

/-- Why pattern text cannot be cut into tokens. -/
inductive ScanFault where
  /-- The text ends behind the backslash at `position`. -/
  | danglingEscape (position : Nat)
  /-- The text ends inside the class opened at `opened`. -/
  | unclosedClass (opened : Nat)
  deriving DecidableEq

namespace ScanFault

/-- What is wrong, in short. -/
def message : ScanFault → String
  | .danglingEscape _ => "Invalid escape sequence"
  | .unclosedClass _ => "Unclosed character class"

/-- What is wrong, and where it began. -/
def details : ScanFault → String
  | .danglingEscape _ => "Escape character '\\' at end of pattern"
  | .unclosedClass opened => s!"Character class starting at position {opened} is not closed"

/-- The place that the fault points at. -/
def position : ScanFault → Nat
  | .danglingEscape position => position
  | .unclosedClass opened => opened

end ScanFault

/-- Where in a pattern a scan stands. -/
inductive Context where
  | outside
  /-- Inside the class opened at `opened`, behind the character `previous`. -/
  | inClass (opened : Nat) (previous : Char)
  /-- Inside the braces of a repetition count. -/
  | inBounds
  deriving DecidableEq

/-- What a character stands for outside brackets and braces. -/
def kindOutside : Char → Kind
  | '.' => .dot
  | '*' => .star
  | '+' => .plus
  | '?' => .question
  | '(' => .leftParen
  | ')' => .rightParen
  | '|' => .pipe
  | '^' => .caret
  | '$' => .dollar
  | '[' => .leftBracket
  | ']' => .rightBracket
  | '\x7b' => .leftBrace
  | '\x7d' => .rightBrace
  | _ => .char

/-- What a character stands for inside the braces of a repetition count. -/
def kindInBounds (c : Char) : Kind :=
  if c.isDigit then .number
  else match c with
    | ',' => .comma
    | '\x7d' => .rightBrace
    | _ => .char

/-- Whether a dash stands between two members of the class opened at `opened`: it follows neither
a bracket `[` nor the caret behind the opening one, and something other than `]` comes next. -/
def isRangeDash (opened : Nat) (previous : Char) (position : Nat) (next : Option Char) : Bool :=
  previous ≠ '[' && !(position = opened + 2 && previous = '^') && next.any (· ≠ ']')

/-- What a character stands for inside a class. -/
def kindInClass (opened : Nat) (previous : Char) (position : Nat) (next : Option Char) :
    Char → Kind
  | ']' => .rightBracket
  | '^' => if position = opened + 1 then .caret else .char
  | '-' => if isRangeDash opened previous position next then .dash else .char
  | _ => .char

/-- What a character stands for behind a backslash. -/
def kindEscaped : Char → Kind
  | 'w' => .word
  | 'd' => .digit
  | '.' => .char
  | _ => .escaped

namespace Context

/-- What the character at `position` stands for, `next` being the character behind it. -/
def kind (context : Context) (position : Nat) (c : Char) (next : Option Char) : Kind :=
  match context with
  | .outside => kindOutside c
  | .inClass opened previous => kindInClass opened previous position next c
  | .inBounds => kindInBounds c

/-- The context behind the token that the character `c` at `position` made. -/
def after (context : Context) (kind : Kind) (position : Nat) (c : Char) : Context :=
  match context, kind with
  | .outside, .leftBracket => .inClass position c
  | .outside, .leftBrace => .inBounds
  | .inClass .., .rightBracket => .outside
  | .inClass opened _, _ => .inClass opened c
  | .inBounds, .rightBrace => .outside
  | context, _ => context

/-- The context behind an escaped character. -/
def afterEscape (context : Context) (c : Char) : Context :=
  match context with
  | .inClass opened _ => .inClass opened c
  | context => context

end Context

/-- Cuts the text that begins at `position` into tokens, behind the tokens `done`, which stand in
reverse. -/
def scanFrom (context : Context) (position : Nat) (done : List Token) :
    List Char → Except ScanFault (List Token)
  | [] =>
    match context with
    | .inClass opened _ => .error (.unclosedClass opened)
    | _ => .ok done.reverse
  | ['\\'] => .error (.danglingEscape position)
  | '\\' :: c :: rest =>
    scanFrom (context.afterEscape c) (position + 2) (⟨kindEscaped c, c, position⟩ :: done) rest
  | c :: rest =>
    let kind := context.kind position c rest.head?
    scanFrom (context.after kind position c) (position + 1) (⟨kind, c, position⟩ :: done) rest

/-- Tokens made before the rest of the text is cut come in front of its tokens. -/
theorem scanFrom_append (context : Context) (position : Nat) (done earlier : List Token)
    (text : List Char) :
    scanFrom context position (done ++ earlier) text =
      (scanFrom context position done text).map (earlier.reverse ++ ·) := by
  fun_induction scanFrom context position done text with
  | case1 => rfl
  | case2 position done context outside =>
    cases context with
    | inClass opened previous => exact absurd rfl (outside opened previous)
    | _ => simp [scanFrom, Except.map]
  | case3 => rfl
  | case4 context position done c rest ih => rw [scanFrom, ← ih, List.cons_append]
  | case5 context position done c rest single escaped kind ih =>
    rw [scanFrom, ← ih, List.cons_append] <;> assumption

/-- The tokens of a pattern. -/
def scan (pattern : String) : Except ScanFault (List Token) :=
  scanFrom .outside 0 [] pattern.toList

end FullMatch.Token
