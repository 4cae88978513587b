/-!
# Tokens

The pieces that pattern text falls into. A token keeps the character it was written with and the
place where it begins, counted in characters from the start of the pattern.
-/

namespace FullMatch

namespace Token

/-- What a piece of pattern text stands for. -/
inductive Kind where
  /-- A character for itself. -/
  | char
  /-- A character for itself because a backslash precedes it; never an operator. -/
  | escaped
  | dot
  | star
  | plus
  | question
  | leftParen
  | rightParen
  | pipe
  | leftBracket
  | rightBracket
  | caret
  | dollar
  /-- The dash of a range between two class members. -/
  | dash
  | word
  | digit
  | leftBrace
  | rightBrace
  /-- A digit of a repetition count. -/
  | number
  | comma
  deriving DecidableEq

end Token

/-- A piece of pattern text. -/
structure Token where
  kind : Token.Kind
  value : Char
  /-- Where the piece begins. -/
  position : Nat
  deriving DecidableEq

namespace Token

/-- Whether a kind of token stands for one character for itself. -/
def Kind.isLiteral : Kind → Bool
  | .char | .escaped => true
  | _ => false

/-- Whether the token stands for one character for itself. -/
def isLiteral (t : Token) : Bool :=
  t.kind.isLiteral

theorem isLiteral_iff {t : Token} : t.isLiteral = true ↔ t.kind = .char ∨ t.kind = .escaped := by
  unfold isLiteral Kind.isLiteral
  split
  · next kind => exact iff_of_true rfl (.inl kind)
  · next kind => exact iff_of_true rfl (.inr kind)
  · next noChar noEscaped => exact iff_of_false nofun (not_or.mpr ⟨noChar, noEscaped⟩)

theorem isLiteral_eq_false {t : Token} {kind : Kind} (is : t.kind = kind) (char : kind ≠ .char)
    (escaped : kind ≠ .escaped) : t.isLiteral = false := by
  rw [Bool.eq_false_iff, ne_eq, isLiteral_iff, is]
  exact not_or.mpr ⟨char, escaped⟩

/-- The token as messages name it. -/
def display (t : Token) : String :=
  let value := t.value
  match t.kind with
  | .char => s!"literal `{value}`"
  | .escaped => s!"escape `\\{value}`"
  | .word => "shorthand `\\w`"
  | .digit => "shorthand `\\d`"
  | .number => s!"number `{value}`"
  | _ => s!"`{value}`"

end Token

end FullMatch
