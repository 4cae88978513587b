import FullMatch.Expr.Printer
import FullMatch.Grammar.Derivation

/-!
# Class text

The items of a class as text (`Item.write`, `classText`) and as tokens (`listed`). Text that is
written carries a backslash wherever a character would be read as something else. Tokens list their
items whatever the ranges among them span, so `listed` also speaks of classes that are refused.
-/

namespace FullMatch.Grammar

/-- An item as it is written between the brackets of a class. -/
def Item.write : Item → List Char → List Char
  | .literal c, rest => writeMember c rest
  | .range first last, rest => writeMember first ('-' :: writeMember last rest)
  | .dash, rest => '-' :: rest
  | .word, rest => '\\' :: 'w' :: rest
  | .digit, rest => '\\' :: 'd' :: rest

theorem Item.write_eq (item : Item) (rest : List Char) :
    item.write rest = item.write [] ++ rest := by
  cases item with
  | literal c => exact writeEscaped_eq _ c rest
  | range first last =>
    simp only [write, writeMember]
    rw [writeEscaped_eq _ first, writeEscaped_eq _ last, writeEscaped_eq _ first ('-' :: _),
      List.append_assoc, List.cons_append]
  | dash | word | digit => rfl

/-- Whether an item can be read back from its text wherever it stands in a class. A bracket `[`
begins no range, and a dash by itself may end up between two members; as a member it is a literal,
with a backslash. -/
def Item.Readable : Item → Prop
  | .literal _ | .word | .digit => True
  | .range first last => first ≠ '[' ∧ first ≤ last ∧ rangeSpan first last ≤ maxClassSize
  | .dash => False

/-- The text of a class that lists items. -/
def classText (negated : Bool) (items : List Item) : List Char :=
  '[' :: ((if negated then ['^'] else []) ++ items.foldr Item.write [']'])

/-- What a token of a class lists by itself. Carets and brackets list nothing. -/
def alone (t : Token) : List Item :=
  match t.kind with
  | .char | .escaped => [.literal t.value]
  | .dash => [.dash]
  | .word => [.word]
  | .digit => [.digit]
  | _ => []

/-- What the tokens of a class list. A literal begins a range wherever a dash and another literal
follow. -/
def listed : List Token → List Item
  | first :: dash :: last :: ts =>
    if first.isLiteral ∧ dash.kind = .dash ∧ last.isLiteral then
      .range first.value last.value :: listed ts
    else alone first ++ listed (dash :: last :: ts)
  | t :: ts => alone t ++ listed ts
  | [] => []

/-- Whether the numbers of the surrogates, which are no characters, lie between two characters. -/
def SpansSurrogates (first last : Char) : Prop :=
  first.toNat < 0xD800 ∧ 0xDFFF < last.toNat

instance (first last : Char) : Decidable (SpansSurrogates first last) :=
  inferInstanceAs (Decidable (_ ∧ _))

end FullMatch.Grammar
