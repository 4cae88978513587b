import FullMatch.Expr.Basic

/-!
# Pattern text of an expression

`Expr.render` writes the pattern text of an expression, with a pair of parentheses only where the
operand would otherwise be read as something else. Each writer puts its text in front of the text
that follows, so that a long left spine is written in constant stack space. What follows has no
influence on the text (`Expr.write_eq`), so the text of an expression is put together from the texts
of its operands (`Expr.operandText`, `Expr.baseText`).
-/

namespace FullMatch

/-- Characters that stand for themselves only behind a backslash, outside a class. -/
def isOperatorChar (c : Char) : Bool :=
  ['.', '*', '+', '?', '(', ')', '|', '[', ']', '\x7b', '\x7d', '^', '$', '\\'].contains c

/-- Characters that stand for themselves only behind a backslash, inside a class. -/
def isClassOperatorChar (c : Char) : Bool :=
  [']', '\\', '-', '^'].contains c

/-- A character, behind a backslash if it needs one. -/
def writeEscaped (needed : Bool) (c : Char) (rest : List Char) : List Char :=
  if needed then '\\' :: c :: rest else c :: rest

theorem writeEscaped_eq (needed : Bool) (c : Char) (rest : List Char) :
    writeEscaped needed c rest = writeEscaped needed c [] ++ rest := by
  cases needed <;> rfl

/-- A literal character as it is written outside a class. -/
def writeLiteral (c : Char) (rest : List Char) : List Char :=
  writeEscaped (isOperatorChar c) c rest

/-- A class member as it is written between the brackets. -/
def writeMember (c : Char) (rest : List Char) : List Char :=
  writeEscaped (isClassOperatorChar c) c rest

/-- A class, its members in code point order. -/
def CharClass.write (k : CharClass) (rest : List Char) : List Char :=
  let body := k.members.foldr writeMember (']' :: rest)
  '[' :: if k.negated then '^' :: body else body

theorem foldr_writeMember_eq (cs rest : List Char) :
    cs.foldr writeMember rest = cs.foldr writeMember [] ++ rest := by
  induction cs with
  | nil => rfl
  | cons c cs ih =>
    rw [List.foldr_cons, List.foldr_cons, ih, writeMember, writeEscaped_eq, writeMember,
      writeEscaped_eq _ _ (List.foldr ..), List.append_assoc]

theorem CharClass.write_eq (k : CharClass) (rest : List Char) :
    k.write rest = k.write [] ++ rest := by
  have members (cs : List Char) :
      cs.foldr writeMember (']' :: rest) = cs.foldr writeMember [']'] ++ rest := by
    rw [foldr_writeMember_eq, foldr_writeMember_eq _ [']'], List.append_assoc]
    rfl
  simp only [write, Std.ExtTreeSet.foldr_eq_foldr_toList, members]
  split <;> rfl

/-- An atom: literals and classes with the backslashes they need, the others as shorthands. -/
def Atom.write : Atom → List Char → List Char
  | .literal c, rest => writeLiteral c rest
  | .anyChar, rest => '.' :: rest
  | .wordChar, rest => '\\' :: 'w' :: rest
  | .digit, rest => '\\' :: 'd' :: rest
  | .charClass k, rest => k.write rest

theorem Atom.write_eq (a : Atom) (rest : List Char) : a.write rest = a.write [] ++ rest := by
  cases a with
  | literal c => exact writeEscaped_eq _ c rest
  | charClass k => exact k.write_eq rest
  | _ => rfl

/-- A number in decimal digits. -/
def writeNumber (n : Nat) (rest : List Char) : List Char :=
  Nat.toDigits 10 n ++ rest

/-- Bounds, their two ends written once when they are the same. -/
def Bounds.write (b : Bounds) (rest : List Char) : List Char :=
  '\x7b' :: writeNumber b.least (match b.most with
    | none => ',' :: '\x7d' :: rest
    | some most =>
      if most = b.least then '\x7d' :: rest else ',' :: writeNumber most ('\x7d' :: rest))

theorem Bounds.write_eq (b : Bounds) (rest : List Char) : b.write rest = b.write [] ++ rest := by
  unfold write writeNumber
  cases b.most with
  | none => simp
  | some most => dsimp only; split <;> simp

/-- What `write` writes, between parentheses if that is asked for. -/
@[inline] def writeGrouped (grouped : Bool) (write : List Char → List Char) (rest : List Char) :
    List Char :=
  if grouped then '(' :: write (')' :: rest) else write rest

theorem writeGrouped_eq (grouped : Bool) (write : List Char → List Char)
    (written : ∀ rest, write rest = write [] ++ rest) (rest : List Char) :
    writeGrouped grouped write rest = writeGrouped grouped write [] ++ rest := by
  cases grouped with
  | false => exact written rest
  | true => simp [writeGrouped, written (')' :: rest), written [')']]

namespace Expr

variable {e : Expr}

/-- Whether an operand of a concatenation needs parentheses. -/
def groupedInConcat : Expr → Bool
  | .alternate .. => true
  | _ => false

/-- Whether the operand of a repetition needs parentheses: whatever is not a single atom does. -/
def groupedInRepeat : Expr → Bool
  | .atom _ => false
  | _ => true

/-- The pattern text of an expression, in front of `rest`. -/
def write : Expr → List Char → List Char
  | .empty, rest => rest
  | .atom a, rest => a.write rest
  | .concat l r, rest =>
    writeGrouped l.groupedInConcat (write l) (writeGrouped r.groupedInConcat (write r) rest)
  | .alternate l r, rest => write l ('|' :: write r rest)
  | .repeated op e, rest => writeGrouped e.groupedInRepeat (write e) (op.toChar :: rest)
  | .counted e b, rest => writeGrouped e.groupedInRepeat (write e) (b.write rest)

/-- The text of an expression stands in front of what follows it. -/
theorem write_eq (e : Expr) (rest : List Char) : e.write rest = e.write [] ++ rest := by
  induction e generalizing rest with
  | empty => rfl
  | atom a => exact a.write_eq rest
  | concat l r ihl ihr =>
    rw [write, write, writeGrouped_eq _ _ ihl, writeGrouped_eq _ _ ihr,
      writeGrouped_eq _ _ ihl (writeGrouped ..), List.append_assoc]
  | alternate l r ihl ihr =>
    rw [write, write, ihl, ihl (_ :: _), ihr, List.append_assoc, List.cons_append]
  | repeated op e ih =>
    rw [write, write, writeGrouped_eq _ _ ih, writeGrouped_eq _ _ ih [_], List.append_assoc]
    rfl
  | counted e b ih =>
    rw [write, write, writeGrouped_eq _ _ ih, writeGrouped_eq _ _ ih (b.write []), b.write_eq,
      List.append_assoc]

/-- The text of an expression as an operand of a concatenation. -/
def operandText (e : Expr) : List Char :=
  writeGrouped e.groupedInConcat e.write []

/-- The text of an expression that is repeated. -/
def baseText (e : Expr) : List Char :=
  writeGrouped e.groupedInRepeat e.write []

theorem writeGrouped_true (e : Expr) :
    writeGrouped true e.write [] = '(' :: (e.write [] ++ [')']) :=
  congrArg ('(' :: ·) (e.write_eq [')'])

theorem operandText_of_grouped (grouped : e.groupedInConcat = true) :
    e.operandText = '(' :: (e.write [] ++ [')']) := by
  rw [operandText, grouped, writeGrouped_true]

theorem operandText_of_single (single : e.groupedInConcat = false) :
    e.operandText = e.write [] := by
  rw [operandText, single]
  rfl

theorem baseText_of_grouped (grouped : e.groupedInRepeat = true) :
    e.baseText = '(' :: (e.write [] ++ [')']) := by
  rw [baseText, grouped, writeGrouped_true]

theorem baseText_of_bare (bare : e.groupedInRepeat = false) : e.baseText = e.write [] := by
  rw [baseText, bare]
  rfl

theorem write_concat (l r : Expr) :
    (Expr.concat l r).write [] = l.operandText ++ r.operandText := by
  rw [write, writeGrouped_eq _ _ l.write_eq]
  rfl

theorem write_alternate (l r : Expr) :
    (Expr.alternate l r).write [] = l.write [] ++ '|' :: r.write [] :=
  l.write_eq _

theorem write_repeated (op : RepeatOp) (e : Expr) :
    (Expr.repeated op e).write [] = e.baseText ++ [op.toChar] :=
  writeGrouped_eq _ _ e.write_eq _

theorem write_counted (e : Expr) (b : Bounds) :
    (Expr.counted e b).write [] = e.baseText ++ b.write [] :=
  writeGrouped_eq _ _ e.write_eq _

theorem operandText_concat (l r : Expr) :
    (Expr.concat l r).operandText = l.operandText ++ r.operandText :=
  write_concat l r

/-- The pattern text of an expression. -/
def render (e : Expr) : String :=
  String.ofList (e.write [])

end Expr

end FullMatch
