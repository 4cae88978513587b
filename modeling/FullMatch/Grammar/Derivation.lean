import FullMatch.Expr.Language
import FullMatch.Grammar.Fault

/-!
# Derivations

The grammar of patterns as a relation between tokens and what they denote, said without a reader:
`Derives limit c tokens e` holds when the tokens are a phrase of category `c` that denotes `e`, no
repetition count being larger than `limit`. How deep groups may be nested is not part of it.
-/

namespace FullMatch

/-- The kind of the token that a postfix repetition is written with. -/
def RepeatOp.kind : RepeatOp → Token.Kind
  | .zeroOrMore => .star
  | .oneOrMore => .plus
  | .optional => .question

/-- A token carries its own character if it is a postfix repetition, and a digit if it is part of a
number. Tokens of the other kinds may carry any character. -/
structure Token.Faithful (t : Token) : Prop where
  operator : ∀ op : RepeatOp, t.kind = op.kind → t.value = op.toChar
  number : t.kind = .number → t.value.isDigit = true

namespace Token

theorem faithful_iff {t : Token} :
    t.Faithful ↔ (t.kind = .star → t.value = '*') ∧ (t.kind = .plus → t.value = '+') ∧
      (t.kind = .question → t.value = '?') ∧ (t.kind = .number → t.value.isDigit = true) := by
  constructor
  · rintro ⟨operator, number⟩
    exact ⟨operator .zeroOrMore, operator .oneOrMore, operator .optional, number⟩
  · rintro ⟨star, plus, question, number⟩
    refine ⟨fun op => ?_, number⟩
    cases op with
    | zeroOrMore => exact star
    | oneOrMore => exact plus
    | optional => exact question

instance : DecidablePred Faithful := fun _ => decidable_of_iff _ faithful_iff.symm

end Token

namespace Grammar

/-- Digits, and the number that they write in decimal. -/
structure IsNumber (ts : List Token) (n : Nat) : Prop where
  nonempty : ts ≠ []
  digits : ∀ t ∈ ts, t.kind = .number
  value : n = Nat.ofDigitChars 10 (ts.map Token.value) 0
  counted : n ≤ maxNumber

/-- What stands between the braces of a repetition count, and the ends that it names. -/
inductive IsBounds : List Token → Nat → Option Nat → Prop where
  | exactly {ts n} (number : IsNumber ts n) : IsBounds ts n (some n)
  | atLeast {ts comma n} (number : IsNumber ts n) (separates : comma.kind = .comma) :
      IsBounds (ts ++ [comma]) n none
  | between {ts comma us n m} (least : IsNumber ts n) (separates : comma.kind = .comma)
      (most : IsNumber us m) : IsBounds (ts ++ comma :: us) n (some m)

/-- What a class lists. -/
inductive Item where
  | literal (c : Char)
  | range (first last : Char)
  | dash
  | word
  | digit

/-- Whether an item names a character. -/
def Item.Names : Item → Char → Prop
  | .literal c, d => d = c
  | .range first last, d => first ≤ d ∧ d ≤ last
  | .dash, d => d = '-'
  | .word, d => Atom.wordChar.Reads d
  | .digit, d => Atom.digit.Reads d

/-- Whether tokens make a range of a literal in front of them. -/
def CompletesRange : List Token → Prop
  | dash :: last :: _ => dash.kind = .dash ∧ last.isLiteral = true
  | _ => False

/-- Tokens, and the items that they list. A literal is the first character of a range whenever a
dash and another literal follow. -/
inductive Lists : List Token → List Item → Prop where
  | nil : Lists [] []
  | literal {t ts items} (literal : t.isLiteral = true) (alone : ¬CompletesRange ts)
      (rest : Lists ts items) : Lists (t :: ts) (.literal t.value :: items)
  | range {first dash last ts items} (literal : first.isLiteral = true)
      (completes : CompletesRange (dash :: last :: ts)) (ordered : first.value ≤ last.value)
      (small : rangeSpan first.value last.value ≤ maxClassSize) (rest : Lists ts items) :
      Lists (first :: dash :: last :: ts) (.range first.value last.value :: items)
  | dash {t ts items} (dash : t.kind = .dash) (rest : Lists ts items) :
      Lists (t :: ts) (.dash :: items)
  | word {t ts items} (word : t.kind = .word) (rest : Lists ts items) :
      Lists (t :: ts) (.word :: items)
  | digit {t ts items} (digit : t.kind = .digit) (rest : Lists ts items) :
      Lists (t :: ts) (.digit :: items)

/-- A set is what items name together. -/
def NamedBy (members : CharSet) (items : List Item) : Prop :=
  ∀ c, c ∈ members ↔ ∃ item ∈ items, item.Names c

/-- A set is neither empty nor too large for a class. -/
def Sized (members : CharSet) : Prop :=
  0 < members.size ∧ members.size ≤ maxClassSize

/-- What stands between the brackets of a class, and the class that it denotes. -/
inductive IsClass : List Token → CharClass → Prop where
  | plain {ts items members} (lists : Lists ts items) (named : NamedBy members items)
      (sized : Sized members) : IsClass ts ⟨members, false⟩
  | negated {caret ts items members} (negates : caret.kind = .caret) (lists : Lists ts items)
      (named : NamedBy members items) (sized : Sized members) :
      IsClass (caret :: ts) ⟨members, true⟩

/-- The phrases of a pattern. -/
inductive Category where
  /-- Branches with bars between them. -/
  | expression
  /-- Factors one after another, or nothing. -/
  | term
  /-- Factors one after another, at least one. -/
  | factors
  /-- A base with at most one repetition behind it. -/
  | factor
  /-- A literal, a shorthand, a group or a class. -/
  | base

/-- Tokens are a phrase that denotes an expression. -/
inductive Derives (limit : UInt32) : Category → List Token → Expr → Prop where
  | branch {ts e} (term : Derives limit .term ts e) : Derives limit .expression ts e
  | alternate {ts bar us l r} (left : Derives limit .expression ts l) (separates : bar.kind = .pipe)
      (right : Derives limit .term us r) :
      Derives limit .expression (ts ++ bar :: us) (.alternate l r)
  | empty : Derives limit .term [] .empty
  | nonempty {ts e} (factors : Derives limit .factors ts e) : Derives limit .term ts e
  | single {ts e} (factor : Derives limit .factor ts e) : Derives limit .factors ts e
  | concat {ts us l r} (left : Derives limit .factors ts l) (right : Derives limit .factor us r) :
      Derives limit .factors (ts ++ us) (.concat l r)
  | bare {ts e} (base : Derives limit .base ts e) : Derives limit .factor ts e
  | repeated {ts t e} {op : RepeatOp} (base : Derives limit .base ts e)
      (repeats : t.kind = op.kind) : Derives limit .factor (ts ++ [t]) (.repeated op e)
  | counted {ts opening us closing e} {b : Bounds} (base : Derives limit .base ts e)
      (opens : opening.kind = .leftBrace) (bounds : IsBounds us b.least b.most)
      (closes : closing.kind = .rightBrace) (allowed : b.largest ≤ limit.toNat) :
      Derives limit .factor (ts ++ opening :: (us ++ [closing])) (.counted e b)
  | literal {t} (literal : t.isLiteral = true) : Derives limit .base [t] (.literal t.value)
  | anyChar {t} (dot : t.kind = .dot) : Derives limit .base [t] (.atom .anyChar)
  | wordChar {t} (word : t.kind = .word) : Derives limit .base [t] (.atom .wordChar)
  | digit {t} (digit : t.kind = .digit) : Derives limit .base [t] (.atom .digit)
  | group {opening ts closing e} (opens : opening.kind = .leftParen)
      (inner : Derives limit .expression ts e) (closes : closing.kind = .rightParen) :
      Derives limit .base (opening :: (ts ++ [closing])) e
  | charClass {opening ts closing k} (opens : opening.kind = .leftBracket) (inner : IsClass ts k)
      (closes : closing.kind = .rightBracket) :
      Derives limit .base (opening :: (ts ++ [closing])) (.atom (.charClass k))

/-- Whether an expression keeps to the limits on classes and on repetition counts. -/
def Admits (limit : UInt32) : Expr → Prop
  | .empty => True
  | .atom a => ∀ k, a = .charClass k → Sized k.members
  | .concat l r | .alternate l r => Admits limit l ∧ Admits limit r
  | .repeated _ e => Admits limit e
  | .counted e b => Admits limit e ∧ b.largest ≤ limit.toNat

end Grammar

end FullMatch
