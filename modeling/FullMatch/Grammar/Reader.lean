import FullMatch.Grammar.Fault

/-!
# Reading tokens

`Grammar.read` turns tokens into the expression they denote:

* a pattern is branches with `|` between them, and a branch is factors one after another;
* a factor is a base with at most one of `*`, `+`, `?` and a repetition count behind it;
* a base is a literal, `.`, a shorthand, a group or a class;
* a class lists literals, ranges and shorthands.

The reader takes one token at a time. It keeps the groups that are open, the innermost first, with
what had been read around each of them, and a focus: the base that may still get a repetition, or
the count or class that is being read. Nesting is a list, so its depth costs no stack.
-/

namespace FullMatch.Grammar

/-- What has been read of an alternation: the finished branches, and the one in progress. -/
structure Level where
  branches : Option Expr
  term : Option Expr

namespace Level

/-- Nothing read yet. -/
def start : Level :=
  ⟨none, none⟩

/-- The branch in progress goes on with `factor`. -/
def push (level : Level) (factor : Expr) : Level :=
  { level with term := some (match level.term with
    | none => factor
    | some term => .concat term factor) }

/-- The expression read; a branch without factors is empty. -/
def close (level : Level) : Expr :=
  let term := level.term.getD .empty
  match level.branches with
  | none => term
  | some branches => .alternate branches term

/-- The branch in progress is finished. -/
def branch (level : Level) : Level :=
  ⟨some level.close, none⟩

end Level

/-- An open group: where it was opened, and what had been read around it. -/
structure Group where
  opened : Nat
  outer : Level

/-- A number of which at least one digit has been read. -/
structure Count where
  /-- Where the first digit stands. -/
  start : Nat
  value : Nat

/-- How far the numbers of a repetition count have been read. -/
inductive Counting where
  | least (n : Option Count)
  | most (least : Nat) (n : Option Count)

/-- What the last literal of a class may still become. -/
inductive Pending where
  /-- Nothing at all has been read of the class. -/
  | opening
  | nothing
  /-- The literal may begin a range. -/
  | literal (t : Token)
  /-- The literal and a dash, behind which a literal ends a range. -/
  | dash (t : Token)

/-- A class of which the closing bracket has not been read. -/
structure OpenClass where
  opened : Nat
  negated : Bool
  members : CharSet
  pending : Pending

/-- What the next token belongs to. -/
inductive Focus where
  /-- A base, or the end of the branch. -/
  | ready
  /-- A base that may get a repetition. -/
  | base (e : Expr)
  /-- The repetition count of `e` that was opened at `opened`. -/
  | bounds (opened : Nat) (e : Expr) (counting : Counting)
  | inClass (c : OpenClass)

/-- What has been read of a pattern. -/
structure Reader where
  groups : List Group
  level : Level
  focus : Focus

namespace Count

/-- The value of a decimal digit; any other character counts as zero. -/
def digitValue (c : Char) : Nat :=
  if c.isDigit then c.toNat - '0'.toNat else 0

/-- The number goes on with the digit `t`. -/
def push (n : Option Count) (t : Token) : Except Fault Count :=
  let start := (n.map Count.start).getD t.position
  let value := (n.map Count.value).getD 0 * 10 + digitValue t.value
  if value ≤ maxNumber then .ok ⟨start, value⟩ else .error (.numberTooLarge start)

end Count

namespace OpenClass

/-- A class of which only the opening bracket has been read. -/
def start (opened : Nat) : OpenClass :=
  ⟨opened, false, ∅, .opening⟩

/-- The members, when the last literal begins no range. -/
def settled (c : OpenClass) : CharSet :=
  match c.pending with
  | .opening | .nothing => c.members
  | .literal t => c.members.insert t.value
  | .dash t => (c.members.insert t.value).insert '-'

/-- The range from `first` to `last` joins the members. -/
def insertRange (c : OpenClass) (first last : Token) : Except Fault OpenClass :=
  if last.value < first.value then .error (.invertedRange first last)
  else if maxClassSize < rangeSpan first.value last.value then .error (.rangeTooLarge first last)
  else .ok { c with
    members := c.members.insertRange first.value last.value
    pending := .nothing }

/-- The class goes on with `t`, which does not close it. A dash is a member where no range can
begin. -/
def push (c : OpenClass) (t : Token) : Except Fault OpenClass :=
  match c.pending, t.kind with
  | .opening, .caret => .ok { c with negated := true, pending := .nothing }
  | .literal first, .dash => .ok { c with pending := .dash first }
  | .dash first, .char | .dash first, .escaped => c.insertRange first t
  | _, .char | _, .escaped => .ok { c with members := c.settled, pending := .literal t }
  | _, .dash => .ok { c with members := c.settled.insert '-', pending := .nothing }
  | _, .word => .ok { c with members := c.settled ∪ .wordChars, pending := .nothing }
  | _, .digit => .ok { c with members := c.settled ∪ .digits, pending := .nothing }
  | _, _ => .error (.unexpectedMember t)

/-- The class, closed. -/
def close (c : OpenClass) : Except Fault CharClass :=
  let members := c.settled
  if members.isEmpty then .error (.emptyClass c.opened)
  else if maxClassSize < members.size then .error (.classTooLarge c.opened)
  else .ok ⟨members, c.negated⟩

end OpenClass

namespace Reader

/-- Nothing read yet. -/
def start : Reader :=
  ⟨[], .start, .ready⟩

/-- The factor `e` is complete. -/
def push (r : Reader) (e : Expr) : Reader :=
  { r with level := r.level.push e, focus := .ready }

/-- `t` follows a complete factor, or nothing. -/
def base (r : Reader) (t : Token) : Except Fault Reader :=
  match t.kind with
  | .char | .escaped => .ok { r with focus := .base (.literal t.value) }
  | .dot => .ok { r with focus := .base (.atom .anyChar) }
  | .word => .ok { r with focus := .base (.atom .wordChar) }
  | .digit => .ok { r with focus := .base (.atom .digit) }
  | .leftBracket => .ok { r with focus := .inClass (.start t.position) }
  | .leftParen =>
    if maxDepth ≤ r.groups.length then .error (.tooDeep t.position)
    else .ok ⟨⟨t.position, r.level⟩ :: r.groups, .start, .ready⟩
  | .rightParen =>
    match r.groups with
    | [] => .error (.unopenedGroup t)
    | group :: groups => .ok ⟨groups, group.outer, .base r.level.close⟩
  | .pipe => .ok { r with level := r.level.branch, focus := .ready }
  | .caret | .dollar => .error (.anchor t)
  | _ => .error (.unexpected t)

/-- The next token, if there is one, follows a complete factor, or nothing. -/
def nextBase (r : Reader) : Option Token → Except Fault Reader
  | some t => r.base t
  | none => .error .unexpectedEnd

/-- `t` follows the base `e`. -/
def afterBase (r : Reader) (e : Expr) (t : Token) : Except Fault Reader :=
  match t.kind with
  | .leftBrace => .ok { r with focus := .bounds t.position e (.least none) }
  | .star | .plus | .question =>
    match RepeatOp.ofChar? t.value with
    | some op => .ok (r.push (.repeated op e))
    | none => (r.push e).nextBase (some t)
  | _ => (r.push e).nextBase (some t)

/-- The count opened at `opened` is closed and takes `e` from `least` to `most` times. -/
def closeBounds (maxRepeat : UInt32) (r : Reader) (opened : Nat) (e : Expr)
    (least : Nat) (most : Option Nat) : Except Fault Reader :=
  let largest := most.getD least
  if maxRepeat.toNat < largest then .error (.boundTooLarge opened largest maxRepeat)
  else match Bounds.ofEnds least most with
    | .ok b => .ok (r.push (.counted e b))
    | .error bounds => .error (.invertedBounds opened bounds)

/-- `t` stands in the repetition count of `e`. -/
def inBounds (maxRepeat : UInt32) (r : Reader) (opened : Nat) (e : Expr) (counting : Counting)
    (t : Token) : Except Fault Reader :=
  match counting, t.kind with
  | .least n, .number =>
    (Count.push n t).map fun n => { r with focus := .bounds opened e (.least (some n)) }
  | .most least n, .number =>
    (Count.push n t).map fun n => { r with focus := .bounds opened e (.most least (some n)) }
  | .least (some n), .comma => .ok { r with focus := .bounds opened e (.most n.value none) }
  | .least (some n), .rightBrace => r.closeBounds maxRepeat opened e n.value (some n.value)
  | .most least n, .rightBrace => r.closeBounds maxRepeat opened e least (n.map Count.value)
  | .least none, _ | .most _ none, _ => .error (.numberExpected (some t))
  | .least (some _), _ | .most _ (some _), _ => .error (.unclosedBounds opened (some t))

/-- `t` stands in the class `c`. -/
def inClass (r : Reader) (c : OpenClass) (t : Token) : Except Fault Reader :=
  match t.kind with
  | .rightBracket => c.close.map fun k => { r with focus := .base (.atom (.charClass k)) }
  | _ => (c.push t).map fun c => { r with focus := .inClass c }

/-- The reader behind one more token. -/
def step (maxRepeat : UInt32) (r : Reader) (t : Token) : Except Fault Reader :=
  match r.focus with
  | .ready => r.nextBase (some t)
  | .base e => r.afterBase e t
  | .bounds opened e counting => r.inBounds maxRepeat opened e counting t
  | .inClass c => r.inClass c t

/-- The expression read when no group is left open. -/
def close (r : Reader) : Except Fault Expr :=
  match r.groups with
  | [] => .ok r.level.close
  | group :: _ => .error (.unclosedGroup group.opened)

/-- The expression read when there are no more tokens. -/
def finish (r : Reader) : Except Fault Expr :=
  match r.focus with
  | .ready => r.close
  | .base e => (r.push e).close
  | .bounds _ _ (.least none) | .bounds _ _ (.most _ none) => .error (.numberExpected none)
  | .bounds opened _ _ => .error (.unclosedBounds opened none)
  | .inClass c => .error (.unclosedClass c.opened)

/-- The reader behind more tokens. -/
def feed (maxRepeat : UInt32) (r : Reader) : List Token → Except Fault Reader
  | [] => .ok r
  | t :: ts =>
    match r.step maxRepeat t with
    | .ok r => r.feed maxRepeat ts
    | .error fault => .error fault

/-- Tokens may be read in two parts. -/
theorem feed_append (maxRepeat : UInt32) (r : Reader) (ts us : List Token) :
    r.feed maxRepeat (ts ++ us) =
      match r.feed maxRepeat ts with
      | .ok r => r.feed maxRepeat us
      | .error fault => .error fault := by
  induction ts generalizing r with
  | nil => rfl
  | cons t ts ih =>
    rw [List.cons_append, feed, feed]
    cases r.step maxRepeat t with
    | ok r => exact ih r
    | error fault => rfl

end Reader

/-- The largest number that a repetition count may hold when nothing else is set. -/
def defaultMaxRepeat : UInt32 :=
  1000

/-- The expression that the tokens denote, no repetition count being larger than `maxRepeat`. -/
def read (maxRepeat : UInt32) (tokens : List Token) : Except Fault Expr :=
  match Reader.start.feed maxRepeat tokens with
  | .ok r => r.finish
  | .error fault => .error fault

end FullMatch.Grammar
