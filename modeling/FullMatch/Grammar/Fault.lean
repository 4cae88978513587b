import FullMatch.Expr.Basic
import FullMatch.Token.Basic

/-!
# Grammar faults

The ways in which a sequence of tokens fails to be a pattern: each cause with what it has to
remember, the place that it points at, and its wording.
-/

namespace FullMatch.Grammar

/-- The largest number that a repetition count may hold. -/
def maxNumber : Nat :=
  UInt32.size - 1

/-- The most characters that a class, or one range in it, may name. -/
def maxClassSize : Nat :=
  65536

/-- The deepest nesting of groups. -/
def maxDepth : Nat :=
  256

/-- Why a sequence of tokens is not a pattern. -/
inductive Fault where
  /-- A closing parenthesis without an opening one. -/
  | unopenedGroup (token : Token)
  /-- The group opened at `opened` is never closed. -/
  | unclosedGroup (opened : Nat)
  /-- The group opened at `opened` is one level too deep. -/
  | tooDeep (opened : Nat)
  /-- The token is an anchor. -/
  | anchor (token : Token)
  /-- The token cannot begin an operand. -/
  | unexpected (token : Token)
  /-- The pattern ends where an operand begins. -/
  | unexpectedEnd
  /-- Digits are missing in front of `found`, or at the end of the pattern. -/
  | numberExpected (found : Option Token)
  /-- The number that begins at `start` is beyond `maxNumber`. -/
  | numberTooLarge (start : Nat)
  /-- The bounds opened at `opened` go on with `found`, or with the end of the pattern. -/
  | unclosedBounds (opened : Nat) (found : Option Token)
  /-- A number in the bounds opened at `opened` is beyond the limit set. -/
  | boundTooLarge (opened : Nat) (bound : Nat) (limit : UInt32)
  /-- The bounds opened at `opened` have their upper end below the lower one. -/
  | invertedBounds (opened : Nat) (bounds : InvertedBounds)
  /-- The class opened at `opened` is never closed. -/
  | unclosedClass (opened : Nat)
  /-- The token cannot stand in a class. -/
  | unexpectedMember (token : Token)
  /-- The class opened at `opened` names no character. -/
  | emptyClass (opened : Nat)
  /-- The class opened at `opened` names too many characters. -/
  | classTooLarge (opened : Nat)
  /-- A range whose first member comes after its last one. -/
  | invertedRange (first last : Token)
  /-- A range over too many numbers. -/
  | rangeTooLarge (first last : Token)
  deriving DecidableEq

/-- How many numbers a range spans, surrogates included. -/
def rangeSpan (first last : Char) : Nat :=
  last.toNat + 1 - first.toNat

namespace Fault

/-- What is wrong, in short. -/
def message : Fault → String
  | .unopenedGroup _ => "Unexpected token at end of pattern"
  | .unclosedGroup _ => "Missing closing parenthesis"
  | .tooDeep _ => "Pattern nested too deeply"
  | .anchor _ => "Anchors are not supported"
  | .unexpected token => "Unexpected token: " ++ token.display
  | .unexpectedEnd => "Unexpected end of pattern"
  | .numberExpected _ => "Expected number in quantifier"
  | .numberTooLarge _ => "Invalid number in quantifier"
  | .unclosedBounds .. => "Unclosed quantifier"
  | .boundTooLarge .. => "Quantifier bound too large"
  | .invertedBounds .. => "Invalid quantifier range"
  | .unclosedClass _ => "Unclosed character class"
  | .unexpectedMember token => "Unexpected token in character class: " ++ token.display
  | .emptyClass _ => "Empty character class"
  | .classTooLarge _ => "Character class too large"
  | .invertedRange .. => "Invalid character range"
  | .rangeTooLarge .. => "Character class too large"

/-- What is wrong, with the tokens and numbers that make it so. -/
def details : Fault → String
  | .unopenedGroup token => s!"Expected end of pattern but found '{token.value}'"
  | .unclosedGroup opened => s!"No matching ')' for opening '(' at position {opened}"
  | .tooDeep _ => s!"Groups may nest at most {maxDepth} levels"
  | .anchor token =>
    s!"'{token.value}' is only valid as the negation marker at the start of a character class"
  | .unexpected token => s!"Token '{token.value}' is not valid in this position"
  | .unexpectedEnd => "Expected a character, group, or character class"
  | .numberExpected (some token) => s!"Found '{token.value}' where digits were expected"
  | .numberExpected none => "Found end of pattern"
  | .numberTooLarge _ => "Number too large"
  | .unclosedBounds opened _ =>
    s!"Expected '\x7d' to close quantifier opened at position {opened}"
  | .boundTooLarge _ bound limit => s!"Bound {bound} exceeds the repetition limit of {limit}"
  | .invertedBounds _ bounds => bounds.message
  | .unclosedClass opened => s!"Character class starting at position {opened} is not closed"
  | .unexpectedMember token => s!"Token '{token.value}' cannot appear inside '[...]'"
  | .emptyClass opened => s!"Character class at position {opened} has no members"
  | .classTooLarge _ => s!"A class may name at most {maxClassSize} characters"
  | .invertedRange first last =>
    s!"Range '{first.value}-{last.value}' is invalid (start > end)"
  | .rangeTooLarge first last =>
    let span := rangeSpan first.value last.value
    s!"Range '{first.value}-{last.value}' spans {span} characters, " ++
      s!"more than the limit of {maxClassSize}"

/-- The place that the fault points at; none is the end of the pattern. -/
def place : Fault → Option Nat
  | .unclosedGroup _ | .unexpectedEnd | .unclosedClass _ => none
  | .numberExpected found | .unclosedBounds _ found => found.map Token.position
  | .unopenedGroup token | .anchor token | .unexpected token | .unexpectedMember token =>
    some token.position
  | .invertedRange first _ | .rangeTooLarge first _ => some first.position
  | .tooDeep position | .numberTooLarge position | .boundTooLarge position ..
  | .invertedBounds position _ | .emptyClass position | .classTooLarge position => some position

/-- The place that the fault points at in a pattern of `length` characters. -/
def position (fault : Fault) (length : Nat) : Nat :=
  fault.place.getD length

end Fault

end FullMatch.Grammar
