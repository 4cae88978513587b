import FullMatch.Expr.Fold

/-!
# Lengths of accepted texts

The interval of lengths that an expression can accept, read off its structure. Lengths are counted
in 64 bits: a least length beyond that stays at the largest number, a greatest length beyond it
counts as unbounded.
-/

namespace FullMatch

/-- An interval of lengths; without a `greatest` it has no upper end. -/
structure LengthRange where
  least : Nat
  greatest : Option Nat
  deriving DecidableEq

namespace LengthRange

/-- The largest length that is counted. -/
def cap : Nat :=
  UInt64.size - 1

/-- A number as a greatest length: none if it is beyond the cap. -/
def upTo (n : Nat) : Option Nat :=
  if n ≤ cap then some n else none

/-- Whether a length lies in the interval. -/
def contains (r : LengthRange) (n : Nat) : Bool :=
  r.least ≤ n && r.greatest.all (n ≤ ·)

/-- The one length `n`. -/
def exactly (n : Nat) : LengthRange :=
  ⟨n, some n⟩

/-- One text after another. -/
def append (r s : LengthRange) : LengthRange where
  least := min (r.least + s.least) cap
  greatest := do upTo ((← r.greatest) + (← s.greatest))

/-- Either of two texts. -/
def hull (r s : LengthRange) : LengthRange where
  least := min r.least s.least
  greatest := do return max (← r.greatest) (← s.greatest)

/-- The interval under a postfix repetition. -/
def repeated (r : LengthRange) (op : RepeatOp) : LengthRange where
  least := if op.skips then 0 else r.least
  greatest := if op.loops then none else r.greatest

/-- The interval under a counted repetition. An operand that is never taken has no say. -/
def times (r : LengthRange) (b : Bounds) : LengthRange where
  least := min (r.least * b.least) cap
  greatest := do
    let n ← b.most
    if n = 0 then some 0 else upTo ((← r.greatest) * n)

/-- Operands one after another, from the left. -/
def sequence : List LengthRange → LengthRange
  | [] => exactly 0
  | r :: rs => rs.foldl append r

/-- Any of several branches. -/
def choice : List LengthRange → LengthRange
  | [] => ⟨cap, some 0⟩
  | r :: rs => rs.foldl hull r

theorem sequence_append (rs : List LengthRange) (r : LengthRange) (nonempty : rs ≠ []) :
    sequence (rs ++ [r]) = (sequence rs).append r := by
  cases rs with
  | nil => exact absurd rfl nonempty
  | cons first rs => simp [sequence]

theorem choice_append (rs : List LengthRange) (r : LengthRange) (nonempty : rs ≠ []) :
    choice (rs ++ [r]) = (choice rs).hull r := by
  cases rs with
  | nil => exact absurd rfl nonempty
  | cons first rs => simp [choice]

/-- How the interval of an expression follows from those of its parts. -/
def algebra : Expr.Algebra LengthRange where
  empty := exactly 0
  atom _ := exactly 1
  sequence := sequence
  choice := choice
  repeated op r := r.repeated op
  counted b r := r.times b

end LengthRange

/-- The lengths that an expression can accept. -/
def Expr.lengths (e : Expr) : LengthRange :=
  e.fold LengthRange.algebra

/-- The lengths of a concatenation are those of its two operands together. -/
theorem Expr.lengths_concat (l r : Expr) :
    (Expr.concat l r).lengths = l.lengths.append r.lengths :=
  Expr.fold_concat_eq (fun _ => rfl) LengthRange.sequence_append l r

/-- The lengths of an alternation are those of either branch. -/
theorem Expr.lengths_alternate (l r : Expr) :
    (Expr.alternate l r).lengths = l.lengths.hull r.lengths :=
  Expr.fold_alternate_eq (fun _ => rfl) LengthRange.choice_append l r

end FullMatch
